import Mathlib.Algebra.Order.Field.Rat
import Mathlib.Tactic.Linarith
import Mathlib.Tactic.NormNum
import Mathlib.Tactic.Positivity
import Mathlib.Tactic.Ring
import RequestQuery.Proofs.Number.Decimal
import RequestQuery.Proofs.Filter.Scalar

/-!
# Numbers are exact or refused

A numeral writes a rational number: all its digits as one whole number, divided by a power of ten.
It is read as an integer of 64 bits if it has no point and fits, else as a decimal with exactly its
digits if these fit the mantissa and the scale. All others are refused, and the fault tells numbers
that are too large, even when rounded, from those with too many digits.
-/

namespace RequestQuery

theorem digitValue_lt {c : Char} (h : c.isDigit = true) : digitValue c < 10 := by
  simp only [Char.isDigit, Bool.and_eq_true, decide_eq_true_eq] at h
  have hupper : c.toNat ≤ '9'.toNat := h.2
  unfold digitValue
  have hnine : '9'.toNat = 57 := rfl
  have hzero : '0'.toNat = 48 := rfl
  omega

theorem ofDigitChars_lt {digits : List Char} (h : digits.all Char.isDigit = true) :
    Nat.ofDigitChars 10 digits 0 < 10 ^ digits.length := by
  induction digits with
  | nil => exact Nat.one_pos
  | cons c digits ih =>
      rw [List.all_cons, Bool.and_eq_true] at h
      have hrest := ih h.2
      have hdigit : digitValue c ≤ 9 := Nat.le_of_lt_succ (digitValue_lt h.1)
      have hmul : 10 ^ digits.length * digitValue c ≤ 10 ^ digits.length * 9 :=
        Nat.mul_le_mul_left _ hdigit
      rw [Nat.ofDigitChars_cons, Nat.mul_zero, Nat.zero_add, Nat.ofDigitChars_eq_ofDigitChars_zero,
        List.length_cons, Nat.pow_succ]
      change 10 ^ digits.length * digitValue c + _ < _
      omega

namespace Decimal

theorem readWhole_eq_none {digits : List Char} {start : Nat} (hstart : start < mantissaBound)
    (h : mantissaBound ≤ Nat.ofDigitChars 10 digits start) : readWhole start digits = none := by
  cases hread : readWhole start digits with
  | none => rfl
  | some mantissa =>
      exfalso
      induction digits generalizing start with
      | nil =>
          rw [Nat.ofDigitChars_nil] at h
          omega
      | cons c digits ih =>
          rw [Nat.ofDigitChars_cons] at h
          simp only [readWhole] at hread
          split at hread
          next hnext => exact ih hnext h hread
          next => cases hread

/-- Behind the first place nothing overflows: a mantissa rounded past its bound has a digit to give. -/
theorem readFraction_ne_overflow (mantissa scale : Nat) (digits : List Char) :
    readFraction mantissa (scale + 1) digits ≠ .overflow := by
  induction digits generalizing mantissa scale with
  | nil => simp [readFraction]
  | cons c digits ih =>
      simp only [readFraction]
      split
      · exact ih _ _
      · unfold roundAt
        repeat' split
        all_goals simp_all

/-- A whole number that fits overflows only if it is the largest and its fraction rounds it up. -/
theorem readFraction_eq_overflow {mantissa : Nat} (h : mantissa < mantissaBound)
    (digits : List Char) :
    readFraction mantissa 0 digits = .overflow ↔
      mantissa + 1 = mantissaBound ∧ ∃ c ∈ digits.head?, 5 ≤ digitValue c := by
  cases digits with
  | nil => simp [readFraction]
  | cons c digits =>
      have hbound : mantissaBound = 79228162514264337593543950336 := by decide
      simp only [readFraction, List.head?_cons, Option.mem_some_iff, exists_eq_left']
      split
      next hnext =>
        apply iff_of_false (readFraction_ne_overflow _ _ _)
        omega
      next =>
        unfold roundAt
        split
        next hdigit =>
          apply iff_of_false
          · simp
          · omega
        next hdigit =>
          split
          next hfits =>
            apply iff_of_false
            · simp
            · omega
          next hfits => simp only [if_true, true_iff]; omega

/-- With the largest whole number, a fraction is at least one half if its first digit is at least
five. -/
private theorem half_le_iff {whole bound digit rest power : Nat} (hwhole : whole < bound)
    (hrest : rest < power) (hdigit : digit < 10) :
    (2 * bound - 1) * (power * 10) ≤ 2 * (power * 10 * whole + (power * digit + rest)) ↔
      whole + 1 = bound ∧ 5 ≤ digit := by
  obtain ⟨gap, rfl⟩ : ∃ gap, bound = whole + 1 + gap := ⟨bound - (whole + 1), by omega⟩
  have htwice : 2 * (whole + 1 + gap) - 1 = 2 * whole + 1 + 2 * gap := by omega
  have hexpand : (2 * whole + 1 + 2 * gap) * (power * 10) =
      2 * (power * 10 * whole) + 10 * power + 20 * (power * gap) := by ring
  rw [htwice, hexpand]
  constructor
  · intro h
    have hgap : power * gap = 0 := by
      by_contra hne
      have hle : power ≤ power * gap :=
        Nat.le_mul_of_pos_right power (Nat.pos_of_ne_zero (right_ne_zero_of_mul hne))
      have hdigits : power * digit ≤ power * 9 := Nat.mul_le_mul_left power (by omega)
      omega
    have hnone : gap = 0 := (Nat.mul_eq_zero.mp hgap).resolve_left (by omega)
    apply And.intro
    · omega
    · by_contra hsmall
      have hdigits : power * digit ≤ power * 4 := Nat.mul_le_mul_left power (by omega)
      omega
  · rintro ⟨hlast, hfive⟩
    have hnone : gap = 0 := by omega
    have hdigits : power * 5 ≤ power * digit := Nat.mul_le_mul_left power hfive
    rw [hnone, Nat.mul_zero]
    omega

/-- Reading overflows exactly if the number is at least the bound less one half. -/
theorem accumulate_eq_overflow {whole fraction : List Char}
    (h : fraction.all Char.isDigit = true) :
    accumulate whole fraction = .overflow ↔ (2 * mantissaBound - 1) * 10 ^ fraction.length ≤
      2 * Nat.ofDigitChars 10 (whole ++ fraction) 0 := by
  have hbound : mantissaBound = 79228162514264337593543950336 := by decide
  rw [Nat.ofDigitChars_append, Nat.ofDigitChars_eq_ofDigitChars_zero (l := fraction)]
  by_cases hwhole : Nat.ofDigitChars 10 whole 0 < mantissaBound
  · rw [accumulate, readWhole_eq_some hwhole]
    simp only
    rw [readFraction_eq_overflow hwhole]
    cases fraction with
    | nil =>
        simp only [List.length_nil, Nat.pow_zero, Nat.ofDigitChars_nil, List.head?_nil]
        apply iff_of_false
        · simp
        · omega
    | cons c digits =>
        rw [List.all_cons, Bool.and_eq_true] at h
        have hvalue : Nat.ofDigitChars 10 (c :: digits) 0 =
            10 ^ digits.length * digitValue c + Nat.ofDigitChars 10 digits 0 := by
          rw [Nat.ofDigitChars_cons, Nat.mul_zero, Nat.zero_add]
          exact Nat.ofDigitChars_eq_ofDigitChars_zero
        rw [hvalue, List.length_cons, Nat.pow_succ]
        simp only [List.head?_cons, Option.mem_some_iff, exists_eq_left']
        exact (half_le_iff hwhole (ofDigitChars_lt h.2) (digitValue_lt h.1)).symm
  · have hread : readWhole 0 whole = none := readWhole_eq_none (by omega) (by omega)
    rw [accumulate, hread]
    refine iff_of_true rfl ?_
    have hle : (2 * mantissaBound - 1) * 10 ^ fraction.length ≤
        2 * Nat.ofDigitChars 10 whole 0 * 10 ^ fraction.length :=
      Nat.mul_le_mul_right _ (by omega)
    have hcomm : 2 * Nat.ofDigitChars 10 whole 0 * 10 ^ fraction.length =
        2 * (10 ^ fraction.length * Nat.ofDigitChars 10 whole 0) := by ring
    omega

theorem readWhole_lt {digits : List Char} {start mantissa : Nat} (hstart : start < mantissaBound)
    (h : readWhole start digits = some mantissa) : mantissa < mantissaBound := by
  by_contra hle
  rw [readWhole_eq_none hstart (by rw [← eq_of_readWhole h]; omega)] at h
  cases h

theorem readFraction_bounds {digits : List Char} {start scale m s : Nat}
    (hstart : start < mantissaBound) (hscale : scale ≤ maxScale)
    (h : readFraction start scale digits = .kept m s) : m < mantissaBound ∧ s ≤ maxScale := by
  induction digits generalizing start scale with
  | nil =>
      cases h
      exact ⟨hstart, hscale⟩
  | cons c digits ih =>
      simp only [readFraction] at h
      split at h
      next hnext => exact ih hnext.2 hnext.1 h
      next => exact absurd h (roundAt_ne_kept _ _ _ m s)

theorem accumulate_bounds {whole fraction : List Char} {m s : Nat}
    (h : accumulate whole fraction = .kept m s) : m < mantissaBound ∧ s ≤ maxScale := by
  unfold accumulate at h
  split at h
  next mantissa hwhole =>
    have hlt : mantissa < mantissaBound := readWhole_lt (by decide) hwhole
    exact readFraction_bounds hlt (Nat.zero_le maxScale) h
  next => cases h

/-- The number a decimal stands for. -/
def toRat (d : Decimal) : ℚ :=
  (if d.negative then -(d.mantissa : ℚ) else d.mantissa) / 10 ^ d.scale

end Decimal

/-- The number a literal stands for, if it is a number. -/
def Literal.number? : Literal → Option ℚ
  | .integer i => some i.toInt
  | .decimal d => some d.toRat
  | .null | .boolean _ | .text _ => none

namespace Numeral

def mantissa (n : Numeral) : Nat := Nat.ofDigitChars 10 (n.whole ++ n.fraction.getD []) 0

/-- How many digits stand behind the point. -/
def scale (n : Numeral) : Nat := (n.fraction.getD []).length

/-- All digits as one number with the sign in front. -/
def signed (n : Numeral) : Int := if n.negative then -(n.mantissa : Int) else n.mantissa

def value (n : Numeral) : ℚ := n.signed / 10 ^ n.scale

/-- There is no point, and the number fits 64 bits. -/
def FitsInteger (n : Numeral) : Prop :=
  n.fraction = none ∧ -2 ^ 63 ≤ n.signed ∧ n.signed < 2 ^ 63

/-- All digits fit a decimal. -/
def FitsDecimal (n : Numeral) : Prop := n.mantissa < 2 ^ 96 ∧ n.scale ≤ 28

instance (n : Numeral) : Decidable n.FitsInteger := inferInstanceAs (Decidable (_ ∧ _ ∧ _))

instance (n : Numeral) : Decidable n.FitsDecimal := inferInstanceAs (Decidable (_ ∧ _))

theorem abs_value (n : Numeral) : |n.value| = n.mantissa / 10 ^ n.scale := by
  have hpower : (0 : ℚ) < 10 ^ n.scale := by positivity
  have hsigned : |(n.signed : ℚ)| = n.mantissa := by
    unfold signed
    split <;> simp
  rw [value, abs_div, abs_of_pos hpower, hsigned]

theorem half_below_bound_le_iff (n : Numeral) :
    2 ^ 96 - 1 / 2 ≤ |n.value| ↔
      (2 * Decimal.mantissaBound - 1) * 10 ^ n.scale ≤ 2 * n.mantissa := by
  have hpower : (0 : ℚ) < 10 ^ n.scale := by positivity
  have hbound : 2 * Decimal.mantissaBound - 1 = 158456325028528675187087900671 := by decide
  rw [abs_value, le_div_iff₀ hpower, hbound, ← Nat.cast_le (α := ℚ)]
  push_cast
  constructor <;> intro h <;> linarith

theorem all_isDigit_fraction {n : Numeral} (hn : n.WellFormed) :
    (n.fraction.getD []).all Char.isDigit = true := by
  cases hfraction : n.fraction with
  | none => rfl
  | some digits => exact (hn.2 digits hfraction).2

private theorem signed_of_whole {n : Numeral} (hpoint : n.fraction = none) :
    (if n.negative then -Int.ofNat (Nat.ofDigitChars 10 n.whole 0)
      else Int.ofNat (Nat.ofDigitChars 10 n.whole 0)) = n.signed := by
  rw [signed, mantissa, hpoint, Option.getD_none, List.append_nil]
  rfl

theorem literal_of_fitsInteger {n : Numeral} (h : n.FitsInteger) :
    n.literal = .ok (.integer (Int64.ofInt n.signed)) := by
  obtain ⟨hpoint, hlow, hhigh⟩ := h
  have hrange : Int64.minValue.toInt ≤ n.signed ∧ n.signed ≤ Int64.maxValue.toInt :=
    ⟨hlow, Int.le_of_lt_add_one hhigh⟩
  simp only [literal, hpoint, Option.isNone_none, if_true, signed_of_whole hpoint, Literal.ofInt?,
    hrange, and_self]

theorem literal_of_not_fitsInteger {n : Numeral} (h : ¬ n.FitsInteger) :
    n.literal = match Decimal.accumulate n.whole (n.fraction.getD []) with
      | .kept mantissa scale =>
          match Decimal.signed? n.negative mantissa scale with
          | some d => .ok (.decimal d)
          | none => .error (.outOfRange (String.ofList n.chars))
      | .rounded _ _ => .error (.inexact (String.ofList n.chars))
      | .overflow => .error (.outOfRange (String.ofList n.chars)) := by
  have hinteger : (if n.fraction.isNone = true then
      Literal.ofInt? (if n.negative = true then -Int.ofNat (Nat.ofDigitChars 10 n.whole 0)
        else Int.ofNat (Nat.ofDigitChars 10 n.whole 0))
      else none) = none := by
    cases hpoint : n.fraction with
    | some digits => rfl
    | none =>
        have hrange : ¬ (Int64.minValue.toInt ≤ n.signed ∧ n.signed ≤ Int64.maxValue.toInt) := by
          rintro ⟨hlow, hhigh⟩
          exact h ⟨hpoint, hlow, Int.lt_add_one_of_le hhigh⟩
        simp only [Option.isNone_none, if_true, signed_of_whole hpoint, Literal.ofInt?, hrange,
          if_false]
  cases hread : Decimal.accumulate n.whole (n.fraction.getD []) with
  | rounded mantissa scale | overflow => simp only [literal, hinteger, hread]
  | kept mantissa scale =>
      cases hsigned : Decimal.signed? n.negative mantissa scale <;>
        simp only [literal, hinteger, hread, hsigned]

theorem literal_of_fitsDecimal {n : Numeral} (hinteger : ¬ n.FitsInteger) (h : n.FitsDecimal) :
    n.literal = .ok (.decimal ⟨n.negative && n.mantissa != 0, n.mantissa, n.scale, h.1, h.2⟩) := by
  have hkept : Decimal.accumulate n.whole (n.fraction.getD []) = .kept n.mantissa n.scale :=
    Decimal.accumulate_eq_kept h.1 h.2
  have hsigned : Decimal.signed? n.negative n.mantissa n.scale =
      some ⟨n.negative && n.mantissa != 0, n.mantissa, n.scale, h.1, h.2⟩ := by
    rw [Decimal.signed?, Decimal.ofParts?, dif_pos ⟨h.1, h.2⟩]
  simp only [literal_of_not_fitsInteger hinteger, hkept, hsigned]

/-- The fault of a numeral that fits nothing. -/
def fault (n : Numeral) : NumberFault :=
  if 2 ^ 96 - 1 / 2 ≤ |n.value| then .outOfRange (String.ofList n.chars)
  else .inexact (String.ofList n.chars)

theorem literal_of_not_fits {n : Numeral} (hn : n.WellFormed) (hinteger : ¬ n.FitsInteger)
    (hdecimal : ¬ n.FitsDecimal) : n.literal = .error n.fault := by
  have hlarge : Decimal.accumulate n.whole (n.fraction.getD []) = .overflow ↔ _ :=
    Decimal.accumulate_eq_overflow (all_isDigit_fraction hn)
  rw [literal_of_not_fitsInteger hinteger, fault]
  cases haccumulated : Decimal.accumulate n.whole (n.fraction.getD []) with
  | kept m s =>
      -- What is kept are all digits, and these do not fit.
      obtain ⟨rfl, rfl⟩ := Decimal.eq_of_accumulate haccumulated
      exact absurd (Decimal.accumulate_bounds haccumulated) hdecimal
  | rounded m s =>
      have hsmall : ¬ 2 ^ 96 - 1 / 2 ≤ |n.value| := by
        rw [half_below_bound_le_iff]
        intro h
        rw [hlarge.mpr h] at haccumulated
        cases haccumulated
      rw [if_neg hsmall]
  | overflow => rw [if_pos ((half_below_bound_le_iff n).mpr (hlarge.mp haccumulated))]

/-- The literal of a numeral in closed form. -/
theorem literal_eq {n : Numeral} (hn : n.WellFormed) :
    n.literal =
      if n.FitsInteger then .ok (.integer (Int64.ofInt n.signed))
      else if h : n.FitsDecimal then
        .ok (.decimal ⟨n.negative && n.mantissa != 0, n.mantissa, n.scale, h.1, h.2⟩)
      else .error n.fault := by
  split
  next hinteger => exact literal_of_fitsInteger hinteger
  next hinteger =>
    split
    next hdecimal => exact literal_of_fitsDecimal hinteger hdecimal
    next hdecimal => exact literal_of_not_fits hn hinteger hdecimal

private theorem toInt_signed {n : Numeral} (h : n.FitsInteger) :
    (Int64.ofInt n.signed).toInt = n.signed :=
  Int64.toInt_ofInt_of_le h.2.1 h.2.2

theorem literal_eq_integer_iff {n : Numeral} (hn : n.WellFormed) (i : Int64) :
    n.literal = .ok (.integer i) ↔ n.FitsInteger ∧ i.toInt = n.signed := by
  rw [literal_eq hn]
  constructor
  · intro h
    split at h
    next hinteger =>
      cases h
      exact ⟨hinteger, toInt_signed hinteger⟩
    next => split at h <;> cases h
  · rintro ⟨hinteger, hi⟩
    rw [if_pos hinteger, ← hi, Int64.ofInt_toInt]

theorem literal_eq_decimal_iff {n : Numeral} (hn : n.WellFormed) (d : Decimal) :
    n.literal = .ok (.decimal d) ↔ ¬ n.FitsInteger ∧ n.FitsDecimal ∧ d.mantissa = n.mantissa ∧
      d.scale = n.scale ∧ d.negative = (n.negative && n.mantissa != 0) := by
  rw [literal_eq hn]
  constructor
  · intro h
    split at h
    next => cases h
    next hinteger =>
      split at h
      next hdecimal =>
        cases h
        exact ⟨hinteger, hdecimal, rfl, rfl, rfl⟩
      next => cases h
  · obtain ⟨negative, mantissa, scale, hmantissa, hscale⟩ := d
    rintro ⟨hinteger, hdecimal, rfl, rfl, rfl⟩
    rw [if_neg hinteger, dif_pos hdecimal]

theorem literal_eq_error_iff {n : Numeral} (hn : n.WellFormed) (fault : NumberFault) :
    n.literal = .error fault ↔ ¬ n.FitsInteger ∧ ¬ n.FitsDecimal ∧ fault = n.fault := by
  rw [literal_eq hn]
  constructor
  · intro h
    split at h
    next => cases h
    next hinteger =>
      split at h
      next => cases h
      next hdecimal =>
        cases h
        exact ⟨hinteger, hdecimal, rfl⟩
  · rintro ⟨hinteger, hdecimal, rfl⟩
    rw [if_neg hinteger, dif_neg hdecimal]

private theorem value_of_fitsInteger {n : Numeral} (h : n.FitsInteger) : n.value = n.signed := by
  rw [value, scale, h.1, Option.getD_none, List.length_nil, pow_zero, div_one]

/-- The number a numeral is read as is the one it writes. -/
theorem number_of_literal {n : Numeral} (hn : n.WellFormed) {l : Literal}
    (h : n.literal = .ok l) : l.number? = some n.value := by
  rw [literal_eq hn] at h
  split at h
  next hinteger =>
    cases h
    rw [Literal.number?, toInt_signed hinteger, value_of_fitsInteger hinteger]
  next =>
    split at h
    next =>
      cases h
      -- Only a zero loses its sign, and that changes no number.
      have hsign : (if (n.negative && n.mantissa != 0) = true then -(n.mantissa : ℚ)
          else n.mantissa) = n.signed := by
        unfold signed
        by_cases hzero : n.mantissa = 0 <;> cases n.negative <;> simp [hzero]
      rw [Literal.number?, Decimal.toRat, hsign, value]
    next => cases h

theorem number_chars {n : Numeral} (hn : n.WellFormed) (offset : Nat) :
    Parser.number ⟨offset, n.chars⟩ = match n.literal with
      | .ok l => .done l ⟨offset + byteLength n.chars, []⟩
      | .error fault => .failed ⟨⟨offset, n.chars⟩, [], some fault⟩ := by
  have hread : Parser.numeral ⟨offset, n.chars ++ []⟩ = _ :=
    Grammar.reads_numeral hn (Grammar.Ends.closesLiteral (by intro _ h; cases h)) offset
  rw [List.append_nil] at hread
  cases hliteral : n.literal <;> simp only [Parser.number, hread, hliteral]

/-- Numbers are exact or refused. The text of a numeral is read as its literal or fails with its
fault: it is an integer exactly if it has no point and fits 64 bits, a decimal with all its digits
exactly if it is none and these fit, and its fault tells whether it is too large even for rounding.
What is read is the number written. -/
theorem literal_exact_or_refused (n : Numeral) (hn : n.WellFormed) :
    (∀ offset, Parser.number ⟨offset, n.chars⟩ = match n.literal with
      | .ok l => .done l ⟨offset + byteLength n.chars, []⟩
      | .error fault => .failed ⟨⟨offset, n.chars⟩, [], some fault⟩) ∧
    (∀ i, n.literal = .ok (.integer i) ↔ n.FitsInteger ∧ i.toInt = n.signed) ∧
    (∀ d, n.literal = .ok (.decimal d) ↔ ¬ n.FitsInteger ∧ n.FitsDecimal ∧
      d.mantissa = n.mantissa ∧ d.scale = n.scale ∧ d.negative = (n.negative && n.mantissa != 0)) ∧
    (∀ fault, n.literal = .error fault ↔ ¬ n.FitsInteger ∧ ¬ n.FitsDecimal ∧
      fault = if 2 ^ 96 - 1 / 2 ≤ |n.value| then .outOfRange (String.ofList n.chars)
        else .inexact (String.ofList n.chars)) ∧
    ∀ l, n.literal = .ok l → l.number? = some n.value :=
  ⟨number_chars hn, literal_eq_integer_iff hn, literal_eq_decimal_iff hn, literal_eq_error_iff hn,
    fun _ => number_of_literal hn⟩

/-- The largest mantissa and one half is out of range, with a zero behind the point it is inexact. -/
theorem literal_largest_mantissa :
    literal ⟨true, "79228162514264337593543950335".toList, some ['5']⟩ =
        .error (.outOfRange "-79228162514264337593543950335.5") ∧
      literal ⟨true, "79228162514264337593543950335".toList, some ['0']⟩ =
        .error (.inexact "-79228162514264337593543950335.0") := by
  constructor
  · refine ((literal_exact_or_refused _ (by decide)).2.2.2.1 _).mpr ⟨by decide, by decide, ?_⟩
    rw [if_pos ((half_below_bound_le_iff _).mpr (by decide))]
    rfl
  · refine ((literal_exact_or_refused _ (by decide)).2.2.2.1 _).mpr ⟨by decide, by decide, ?_⟩
    rw [if_neg (mt (half_below_bound_le_iff _).mp (by decide))]
    rfl

end Numeral

end RequestQuery
