import RequestQuery.Paging
import RequestQuery.Proofs.Number.Decimal
import Mathlib.Algebra.Order.Ring.Int
import Mathlib.Data.List.TakeWhile

/-!
# Limits and pages are exact

A text is a limit or a page exactly if it writes a positive integer that is safe, with any number of
digits. A number and its text are judged alike. It makes no difference that a machine reads integers
into words of 64 bits: what a word does not hold is not safe, and no rounding makes it safe.
-/

namespace RequestQuery

/-- Digits, of any number and with any zeros in front, write an integer, and so do digits behind a
minus sign. -/
inductive WritesInteger : List Char → Int → Prop where
  | digits {digits : List Char} (nonempty : digits ≠ []) (all : digits.all Char.isDigit = true) :
      WritesInteger digits (Nat.ofDigitChars 10 digits 0)
  | minus {digits : List Char} (nonempty : digits ≠ []) (all : digits.all Char.isDigit = true) :
      WritesInteger ('-' :: digits) (-(Nat.ofDigitChars 10 digits 0))

private theorem ne_minus_of_isDigit {c : Char} (h : c.isDigit = true) : c ≠ '-' := by
  rintro rfl
  exact absurd h (by decide)

theorem integerOfText?_eq_some_iff {text : List Char} {n : Int} :
    integerOfText? text = some n ↔ WritesInteger text n := by
  constructor
  · intro h
    unfold integerOfText? at h
    split at h
    next negative digits hsplit =>
      split at h
      next hdigits =>
        split at hsplit
        next rest =>
          cases hsplit
          cases h
          exact .minus hdigits.1 hdigits.2
        next =>
          cases hsplit
          cases h
          exact .digits hdigits.1 hdigits.2
      next => cases h
  · rintro (⟨hne, hall⟩ | ⟨hne, hall⟩)
    · cases text with
      | nil => exact absurd rfl hne
      | cons c cs =>
          have hminus : c ≠ '-' := ne_minus_of_isDigit (List.all_eq_true.mp hall c List.mem_cons_self)
          unfold integerOfText?
          split
          next negative digits hsplit =>
            split at hsplit
            next heq =>
              cases heq
              exact absurd rfl hminus
            next =>
              cases hsplit
              rw [if_pos ⟨hne, hall⟩]
              rfl
    · simp only [integerOfText?, hne, hall, ne_eq, not_false_eq_true, and_self, if_true]
      rfl

theorem toList_toString_nat (n : Nat) : (toString (n : Int)).toList = Nat.toDigits 10 n :=
  Nat.toList_repr

theorem toList_toString_negSucc (n : Nat) :
    (toString (Int.negSucc n)).toList = '-' :: Nat.toDigits 10 (n + 1) := by
  change ("-" ++ (n + 1).repr).toList = _
  rw [String.toList_append, Nat.toList_repr]
  rfl

theorem writesInteger_toString (n : Int) : WritesInteger (toString n).toList n := by
  have hvalue : ∀ m : Nat, Nat.ofDigitChars 10 (Nat.toDigits 10 m) 0 = m := fun m =>
    Nat.ofDigitChars_ten_toDigits
  cases n with
  | ofNat m =>
      have hwrites := WritesInteger.digits Nat.toDigits_ne_nil (all_isDigit_toDigits m)
      rw [hvalue] at hwrites
      change WritesInteger (toString (m : Int)).toList m
      rwa [toList_toString_nat]
  | negSucc m =>
      have hwrites := WritesInteger.minus Nat.toDigits_ne_nil (all_isDigit_toDigits (m + 1))
      rw [hvalue] at hwrites
      rwa [toList_toString_negSucc]

theorem integerOfText?_toString (n : Int) : integerOfText? (toString n).toList = some n :=
  integerOfText?_eq_some_iff.mpr (writesInteger_toString n)

/-- An integer that every JSON number can carry. -/
def Safe (n : Int) : Prop := -(2 ^ 53 - 1) ≤ n ∧ n ≤ 2 ^ 53 - 1

section Judging

variable {value : Option Int}

private theorem positive_some (n : Int) :
    positive (some n) =
      if n < -(2 ^ 53 - 1) ∨ 2 ^ 53 - 1 < n then .error .notInteger
      else if n < 1 then .error .notPositive else .ok n.toNat := rfl

theorem positive_eq_ok_iff {k : Nat} :
    positive value = .ok k ↔ value = some ↑k ∧ 1 ≤ k ∧ k ≤ 2 ^ 53 - 1 := by
  cases value with
  | none => simp [positive]
  | some n =>
      rw [positive_some, Option.some.injEq]
      split
      next hunsafe =>
        simp only [reduceCtorEq, false_iff]
        omega
      next =>
        split
        next =>
          simp only [reduceCtorEq, false_iff]
          omega
        next =>
          rw [Except.ok.injEq]
          omega

theorem positive_eq_notPositive_iff :
    positive value = .error .notPositive ↔ ∃ n, value = some n ∧ Safe n ∧ n ≤ 0 := by
  cases value with
  | none => simp [positive]
  | some n =>
      simp only [positive_some, Option.some.injEq, exists_eq_left', Safe]
      split
      next hunsafe =>
        simp only [Except.error.injEq, reduceCtorEq, false_iff]
        omega
      next =>
        split
        next =>
          simp only [true_iff]
          omega
        next =>
          simp only [reduceCtorEq, false_iff]
          omega

theorem positive_eq_notInteger_iff :
    positive value = .error .notInteger ↔ ∀ n, value = some n → ¬Safe n := by
  cases value with
  | none => simp [positive]
  | some n =>
      simp only [positive_some, Option.some.injEq, forall_eq', Safe]
      split
      next hunsafe =>
        simp only [true_iff]
        omega
      next =>
        split
        next =>
          simp only [Except.error.injEq, reduceCtorEq, false_iff]
          omega
        next =>
          simp only [reduceCtorEq, false_iff]
          omega

/-- An integer that is not safe is judged as if there were none. -/
theorem positive_of_not_safe {n : Int} (h : ¬Safe n) : positive (some n) = positive none := by
  apply positive_eq_notInteger_iff.mpr
  rintro m ⟨⟩
  exact h

variable (property : PagingProperty)

theorem PagingProperty.check_eq_ok_iff {k : Nat} :
    property.check value = .ok k ↔ positive value = .ok k := by
  unfold PagingProperty.check
  cases positive value <;> simp

theorem PagingProperty.check_eq_error_iff {fault : PagingFault} :
    property.check value = .error (property.error fault) ↔ positive value = .error fault := by
  unfold PagingProperty.check
  cases positive value with
  | ok k => simp
  | error other =>
      have hcode : ErrorCode.invalidType ≠ ErrorCode.valueOutOfRange := by decide
      cases other <;> cases fault <;> simp [PagingProperty.error, hcode, hcode.symm]

theorem Limit.ofInteger_ne_unlimited : Limit.ofInteger value ≠ .ok .unlimited := by
  unfold Limit.ofInteger
  cases PagingProperty.limit.check value <;> simp

theorem Limit.ofInteger_eq_count_iff {k : Nat} :
    Limit.ofInteger value = .ok (.count k) ↔ positive value = .ok k := by
  rw [← PagingProperty.check_eq_ok_iff .limit, Limit.ofInteger]
  cases PagingProperty.limit.check value <;> simp

theorem Limit.ofInteger_eq_error_iff {fault : PagingFault} :
    Limit.ofInteger value = .error (PagingProperty.limit.error fault) ↔
      positive value = .error fault := by
  rw [← PagingProperty.check_eq_error_iff .limit, Limit.ofInteger]
  cases PagingProperty.limit.check value <;> simp

end Judging

/-- An integer that a word of 64 bits with a sign holds. -/
def word? (n : Int) : Option Int := if -2 ^ 63 ≤ n ∧ n < 2 ^ 63 then some n else none

def Binary64.ofInt (n : Int) : Binary64 := { Binary64.ofNat n.natAbs with negative := n < 0 }

/-- The integer that a binary number is, if it is a safe one. -/
def Binary64.safeInt? (x : Binary64) : Option Int :=
  x.toInt?.bind fun n => if n.natAbs ≤ 2 ^ 53 - 1 then some n else none

/-- The integer of a number by way of a word or, if no word holds it, of the nearest binary number. -/
def JsonNumber.machineInteger? : JsonNumber → Option Int
  | .integer n => word? n <|> (Binary64.ofInt n).safeInt?
  | .float x => x.safeInt?

theorem positive_bind_word? (value : Option Int) : positive (value.bind word?) = positive value := by
  cases value with
  | none => rfl
  | some n =>
      rw [Option.bind_some, word?]
      split
      next => rfl
      next hword =>
        have hunsafe : ¬Safe n := by
          unfold Safe
          omega
        exact (positive_of_not_safe hunsafe).symm

namespace Ratio

theorem scale2_neg (n e : Nat) : scale2 ⟨n, 1⟩ (-(e : Int)) = ⟨n, 2 ^ e⟩ := by
  cases e with
  | zero => exact congrArg (Ratio.mk · 1) (Nat.mul_one n)
  | succ e => exact congrArg (Ratio.mk n) (Nat.one_mul _)

theorem log2_nat {n : Nat} (hn : n ≠ 0) : log2 ⟨n, 1⟩ = n.log2 := by
  have hguess : Int.ofNat n.log2 - Int.ofNat (Nat.log2 1) = (n.log2 : Int) := by
    rw [show Nat.log2 1 = 0 by decide]
    exact Int.sub_zero _
  have hle : ¬n < 2 ^ n.log2 := Nat.not_lt.mpr (Nat.log2_self_le hn)
  simp only [log2, hguess, scale2_neg, if_neg hle]

theorem div_le_roundEven (r : Ratio) : r.num / r.den ≤ r.roundEven := by
  unfold roundEven
  dsimp only
  split
  next => exact Nat.le_refl _
  next =>
    split
    next => omega
    next => split <;> omega

end Ratio

namespace Binary64

/-- A number past the significand is rounded to a full significand and an exponent. -/
theorem exists_ofNat {n : Nat} (hlow : 2 ^ 53 ≤ n) (hhigh : n < 2 ^ 65) :
    ∃ significand exponent : Nat, ofNat n = ⟨false, significand, exponent⟩ ∧
      2 ^ 52 ≤ significand ∧ 1 ≤ exponent := by
  have hne : n ≠ 0 := by omega
  obtain ⟨e, he⟩ : ∃ e, n.log2 = 52 + e := ⟨n.log2 - 52, by
    have := (Nat.le_log2 hne).mpr hlow
    omega⟩
  have hlog := (Nat.le_log2 hne).mpr hlow
  have hlog' := (Nat.log2_lt hne).mpr hhigh
  have hexponent : max minExponent (Ratio.log2 ⟨n, 1⟩ - 52) = (e : Int) := by
    rw [Ratio.log2_nat hne, he]
    unfold minExponent
    omega
  have hfull : 2 ^ 52 ≤ (Ratio.mk n (2 ^ e)).roundEven := by
    have hself := Nat.log2_self_le hne
    rw [he, Nat.pow_add] at hself
    have hdiv : 2 ^ 52 ≤ n / 2 ^ e := (Nat.le_div_iff_mul_le (Nat.two_pow_pos e)).mpr hself
    exact hdiv.trans (Ratio.div_le_roundEven ⟨n, 2 ^ e⟩)
  unfold ofNat ofRatio ofRatio?
  rw [if_neg hne]
  dsimp only
  rw [hexponent, Ratio.scale2_neg]
  by_cases hcarry : (Ratio.mk n (2 ^ e)).roundEven = Nat.pow 2 53
  · refine ⟨2 ^ 52, e + 1, ?_, Nat.le_refl _, by omega⟩
    have hmax : (e : Int) + 1 ≤ maxExponent := by
      unfold maxExponent
      omega
    rw [if_pos hcarry, if_pos hmax]
    rfl
  · refine ⟨_, e, ?_, hfull, by omega⟩
    have hmax : (e : Int) ≤ maxExponent := by
      unfold maxExponent
      omega
    rw [if_neg hcarry, if_pos hmax]
    rfl

theorem toInt?_of_exponent (negative : Bool) (significand exponent : Nat) :
    (Binary64.mk negative significand exponent).toInt? =
      some (if negative then -((significand * 2 ^ exponent : Nat) : Int)
        else ((significand * 2 ^ exponent : Nat) : Int)) := by
  simp only [toInt?, ratio, Ratio.scale2, Nat.mod_one, Nat.div_one, if_true]
  rfl

/-- An integer that is not safe is not rounded to a safe one. -/
theorem safeInt?_ofInt {n : Int} (hlow : 2 ^ 53 ≤ n.natAbs) (hhigh : n.natAbs < 2 ^ 65) :
    (ofInt n).safeInt? = none := by
  obtain ⟨significand, exponent, hnumber, hfull, hexponent⟩ := exists_ofNat hlow hhigh
  have hlarge : 2 ^ 53 ≤ significand * 2 ^ exponent := by
    have hpower : 2 ^ 1 ≤ 2 ^ exponent := Nat.pow_le_pow_right (by decide) hexponent
    exact Nat.mul_le_mul hfull hpower
  have hsigned : ofInt n = ⟨n < 0, significand, exponent⟩ := by rw [ofInt, hnumber]
  rw [safeInt?, hsigned, toInt?_of_exponent]
  generalize significand * 2 ^ exponent = magnitude at hlarge
  have hunsafe : ¬(if decide (n < 0) then -(magnitude : Int) else magnitude).natAbs ≤ 2 ^ 53 - 1 := by
    split <;> omega
  rw [Option.bind_some, if_neg hunsafe]

end Binary64

/-- The integers that are numbers of a document as they are written. -/
def JsonNumber.Held : JsonNumber → Prop
  | .integer n => -2 ^ 63 ≤ n ∧ n < 2 ^ 64
  | .float _ => True

theorem positive_safeInt? (x : Binary64) : positive x.safeInt? = positive x.toInt? := by
  unfold Binary64.safeInt?
  cases x.toInt? with
  | none => rfl
  | some n =>
      rw [Option.bind_some]
      split
      next => rfl
      next hlarge =>
        have hunsafe : ¬Safe n := by
          unfold Safe
          omega
        exact (positive_of_not_safe hunsafe).symm

theorem positive_machineInteger? {number : JsonNumber} (h : number.Held) :
    positive number.machineInteger? = positive (integerOfJson? (.number number)) := by
  cases number with
  | float x => exact positive_safeInt? x
  | integer n =>
      obtain ⟨hlow, hhigh⟩ := h
      change positive (word? n <|> (Binary64.ofInt n).safeInt?) = positive (some n)
      rw [← positive_bind_word? (some n), Option.bind_some]
      by_cases hword : -2 ^ 63 ≤ n ∧ n < 2 ^ 63
      · rw [word?, if_pos hword]
        rfl
      · rw [word?, if_neg hword, Binary64.safeInt?_ofInt (by omega) (by omega)]
        rfl

namespace JsonNumber

theorem absorb_eq {digits : List Char} {start : Nat}
    (h : Nat.ofDigitChars 10 digits start < significandBound) :
    absorb start digits = (Nat.ofDigitChars 10 digits start, []) := by
  induction digits generalizing start with
  | nil => rfl
  | cons c digits ih =>
      rw [Nat.ofDigitChars_cons] at h ⊢
      have hnext : 10 * start + digitValue c < significandBound :=
        Nat.lt_of_le_of_lt (Decimal.le_ofDigitChars _ digits) h
      rw [absorb, if_pos hnext]
      exact ih h

/-- Only zero is written with a zero in front. -/
theorem head?_toDigits {n : Nat} (h : (Nat.toDigits 10 n).head? = some '0') : n = 0 := by
  induction n using Nat.strongRecOn with
  | ind n ih =>
      by_cases hsmall : n < 10
      · rw [Nat.toDigits_of_lt_base hsmall, List.head?_cons, Option.some.injEq] at h
        exact Nat.digitChar_eq_zero.mp h
      · have hfront : (Nat.toDigits 10 (n / 10)).head? = some '0' := by
          rw [Nat.toDigits_of_base_le (by decide) (by omega), List.head?_append] at h
          have hne : Nat.toDigits 10 (n / 10) ≠ [] := Nat.toDigits_ne_nil
          obtain ⟨c, cs, hdigits⟩ := List.exists_cons_of_ne_nil hne
          rw [hdigits] at h ⊢
          exact h
        have hzero := ih (n / 10) (by omega) hfront
        omega

/-- A number behind its sign. -/
private def readUnsigned? (negative : Bool) (body : List Char) : Option (JsonNumber × List Char) :=
  let digits := body.takeWhile Char.isDigit
  let (significand, left) := absorb 0 digits
  if digits = [] ∨ (digits.head? = some '0' ∧ digits.length ≠ 1) then none
  else readTail? negative significand left.length (body.dropWhile Char.isDigit)

private theorem read?_minus (body : List Char) : read? ('-' :: body) = readUnsigned? true body := rfl

private theorem read?_digit {c : Char} (h : c.isDigit = true) (body : List Char) :
    read? (c :: body) = readUnsigned? false (c :: body) := by
  unfold read?
  split
  next negative rest hsplit =>
    split at hsplit
    next heq =>
      cases heq
      exact absurd rfl (ne_minus_of_isDigit h)
    next =>
      cases hsplit
      rfl

private theorem readUnsigned?_toDigits (negative : Bool) {n : Nat} (h : n < significandBound) :
    readUnsigned? negative (Nat.toDigits 10 n) = (ofWhole? negative n 0).map (·, []) := by
  have hall := List.all_eq_true.mp (all_isDigit_toDigits n)
  have htake : (Nat.toDigits 10 n).takeWhile Char.isDigit = Nat.toDigits 10 n :=
    List.takeWhile_eq_self_iff.mpr hall
  have hdrop : (Nat.toDigits 10 n).dropWhile Char.isDigit = [] := List.dropWhile_eq_nil_iff.mpr hall
  have hvalue : Nat.ofDigitChars 10 (Nat.toDigits 10 n) 0 = n := Nat.ofDigitChars_ten_toDigits
  have hzero : ¬(Nat.toDigits 10 n = [] ∨
      (Nat.toDigits 10 n).head? = some '0' ∧ (Nat.toDigits 10 n).length ≠ 1) := by
    rintro (hnil | ⟨hhead, hlength⟩)
    · exact Nat.toDigits_ne_nil hnil
    · rw [head?_toDigits hhead] at hlength
      exact hlength rfl
  have habsorb := absorb_eq (hvalue.symm ▸ h : Nat.ofDigitChars 10 (Nat.toDigits 10 n) 0 < _)
  simp only [readUnsigned?, htake, hdrop, habsorb, hvalue, if_neg hzero]
  rfl

theorem read?_toString {n : Int} (h : (JsonNumber.integer n).Held) :
    read? (toString n).toList = some (.integer n, []) := by
  obtain ⟨hlow, hhigh⟩ := h
  cases n with
  | ofNat m =>
      have hbound : m < significandBound := by
        change (m : Int) < 2 ^ 64 at hhigh
        change m < 2 ^ 64
        omega
      change read? (toString (m : Int)).toList = _
      rw [toList_toString_nat]
      have hne : Nat.toDigits 10 m ≠ [] := Nat.toDigits_ne_nil
      obtain ⟨c, cs, hdigits⟩ := List.exists_cons_of_ne_nil hne
      have hdigit : c.isDigit = true :=
        List.all_eq_true.mp (all_isDigit_toDigits m) c (hdigits ▸ List.mem_cons_self)
      rw [hdigits, read?_digit hdigit, ← hdigits, readUnsigned?_toDigits false hbound]
      rfl
  | negSucc m =>
      have hbound : m + 1 ≤ 2 ^ 63 := by omega
      rw [toList_toString_negSucc, read?_minus, readUnsigned?_toDigits true]
      · have hfits : 0 < m + 1 ∧ m + 1 ≤ Nat.pow 2 63 := ⟨Nat.succ_pos m, hbound⟩
        rw [ofWhole?, if_neg (by simp), if_neg (by simp), if_pos hfits]
        rfl
      · change m + 1 < 2 ^ 64
        omega

end JsonNumber

section Texts

variable {text : List Char}

theorem positive_text_eq_ok_iff {k : Nat} :
    positive (integerOfText? text) = .ok k ↔ WritesInteger text k ∧ 1 ≤ k ∧ k ≤ 2 ^ 53 - 1 := by
  rw [positive_eq_ok_iff, integerOfText?_eq_some_iff]

theorem positive_text_eq_notPositive_iff :
    positive (integerOfText? text) = .error .notPositive ↔
      ∃ n, WritesInteger text n ∧ -(2 ^ 53 - 1) ≤ n ∧ n ≤ 0 := by
  rw [positive_eq_notPositive_iff]
  refine exists_congr fun n => ?_
  rw [integerOfText?_eq_some_iff]
  refine and_congr_right fun _ => ?_
  unfold Safe
  omega

theorem positive_text_eq_notInteger_iff :
    positive (integerOfText? text) = .error .notInteger ↔ ∀ n, WritesInteger text n → ¬Safe n := by
  rw [positive_eq_notInteger_iff]
  refine forall_congr' fun n => ?_
  rw [integerOfText?_eq_some_iff]

variable {source : String}

private theorem positive_unlimited :
    positive (integerOfText? "unlimited".toList) = .error .notInteger := by decide

theorem Limit.parse_eq_unlimited_iff :
    Limit.parse source = .ok .unlimited ↔ source = "unlimited" := by
  unfold Limit.parse
  split
  next h => simp [h]
  next h => simp [h, Limit.ofInteger_ne_unlimited]

theorem Limit.parse_eq_count_iff {k : Nat} :
    Limit.parse source = .ok (.count k) ↔ positive (integerOfText? source.toList) = .ok k := by
  unfold Limit.parse
  split
  next h =>
    rw [h, positive_unlimited]
    simp
  next => exact Limit.ofInteger_eq_count_iff

theorem Limit.parse_eq_error_iff {fault : PagingFault} :
    Limit.parse source = .error (PagingProperty.limit.error fault) ↔
      source ≠ "unlimited" ∧ positive (integerOfText? source.toList) = .error fault := by
  unfold Limit.parse
  split
  next h => simp [h]
  next h =>
    rw [Limit.ofInteger_eq_error_iff]
    exact (and_iff_right h).symm

theorem Limit.parse_eq_notPositive_iff :
    Limit.parse source = .error (PagingProperty.limit.error .notPositive) ↔
      positive (integerOfText? source.toList) = .error .notPositive := by
  rw [Limit.parse_eq_error_iff, and_iff_right_iff_imp]
  rintro h rfl
  rw [positive_unlimited] at h
  cases h

end Texts

/-- Limits and pages are the positive safe integers in any spelling, and the errors tell the other safe
integers from everything else. A number that a document holds gives what its text gives, error and
message included, and going through words of 64 bits changes nothing. -/
theorem paging_exact :
    (∀ source : String,
      (Limit.parse source = .ok .unlimited ↔ source = "unlimited") ∧
      (∀ k : Nat, Limit.parse source = .ok (.count k) ↔
        WritesInteger source.toList k ∧ 1 ≤ k ∧ k ≤ 2 ^ 53 - 1) ∧
      (∀ k : Nat, Page.parse source = .ok k ↔
        WritesInteger source.toList k ∧ 1 ≤ k ∧ k ≤ 2 ^ 53 - 1) ∧
      (Limit.parse source = .error (.validation .valueOutOfRange "limit must be greater than 0") ↔
        ∃ n, WritesInteger source.toList n ∧ -(2 ^ 53 - 1) ≤ n ∧ n ≤ 0) ∧
      (Page.parse source = .error (.validation .valueOutOfRange "page must be greater than 0") ↔
        ∃ n, WritesInteger source.toList n ∧ -(2 ^ 53 - 1) ≤ n ∧ n ≤ 0) ∧
      (Limit.parse source =
          .error (.validation .invalidType "limit must be an integer or \"unlimited\"") ↔
        source ≠ "unlimited" ∧ ∀ n, WritesInteger source.toList n → ¬Safe n) ∧
      (Page.parse source = .error (.validation .invalidType "page must be an integer") ↔
        ∀ n, WritesInteger source.toList n → ¬Safe n)) ∧
    (∀ n : Int, -2 ^ 63 ≤ n → n < 2 ^ 64 →
      JsonNumber.read? (toString n).toList = some (.integer n, []) ∧
      Limit.ofJson (.int n) = Limit.ofJson (.string (toString n)) ∧
      Page.ofOptional (some (.int n)) = Page.ofOptional (some (.string (toString n)))) ∧
    ∀ property : PagingProperty,
      (∀ text, property.check ((integerOfText? text).bind word?) =
        property.check (integerOfText? text)) ∧
      ∀ number : JsonNumber, number.Held →
        property.check number.machineInteger? = property.check (integerOfJson? (.number number)) := by
  refine ⟨fun source => ⟨Limit.parse_eq_unlimited_iff, fun k => ?_, fun k => ?_, ?_, ?_, ?_, ?_⟩,
    fun n hlow hhigh => ⟨JsonNumber.read?_toString ⟨hlow, hhigh⟩, ?_, ?_⟩,
    fun property => ⟨fun text => ?_, fun number hheld => ?_⟩⟩
  · exact Limit.parse_eq_count_iff.trans positive_text_eq_ok_iff
  · exact (PagingProperty.check_eq_ok_iff .page).trans positive_text_eq_ok_iff
  · exact Limit.parse_eq_notPositive_iff.trans positive_text_eq_notPositive_iff
  · exact (PagingProperty.check_eq_error_iff .page).trans positive_text_eq_notPositive_iff
  · rw [← positive_text_eq_notInteger_iff]
    exact @Limit.parse_eq_error_iff source .notInteger
  · exact (PagingProperty.check_eq_error_iff .page).trans positive_text_eq_notInteger_iff
  · have hne : toString n ≠ "unlimited" := by
      intro h
      have hinteger := integerOfText?_toString n
      rw [h, show integerOfText? "unlimited".toList = none by decide] at hinteger
      cases hinteger
    change Limit.ofInteger (some n) = Limit.parse (toString n)
    rw [Limit.parse, if_neg hne, integerOfText?_toString]
  · change PagingProperty.page.check (some n) = Page.parse (toString n)
    rw [Page.parse, integerOfText?_toString]
  · rw [PagingProperty.check, positive_bind_word?]
    rfl
  · rw [PagingProperty.check, positive_machineInteger? hheld]
    rfl

/-- A limit with zeros in front, a page that is minus zero, and the largest integer a document holds. -/
theorem paging_exact_bounds :
    Limit.parse "009007199254740991" = .ok (.count 9007199254740991) ∧
    Page.parse "-0" = .error (.validation .valueOutOfRange "page must be greater than 0") ∧
    (-2 ^ 63 ≤ (18446744073709551615 : Int) ∧ (18446744073709551615 : Int) < 2 ^ 64) ∧
    Limit.ofJson (.int 18446744073709551615) =
      .error (.validation .invalidType "limit must be an integer or \"unlimited\"") ∧
    Limit.ofJson (.int 18446744073709551615) = Limit.ofJson (.string "18446744073709551615") := by
  obtain ⟨htexts, hnumbers, -⟩ := paging_exact
  have hcount : WritesInteger "009007199254740991".toList (9007199254740991 : Nat) :=
    integerOfText?_eq_some_iff.mp (by decide)
  have hzero : WritesInteger "-0".toList 0 := integerOfText?_eq_some_iff.mp (by decide)
  have hlow : -2 ^ 63 ≤ (18446744073709551615 : Int) := by decide
  have hhigh : (18446744073709551615 : Int) < 2 ^ 64 := by decide
  refine ⟨?_, ?_, ⟨hlow, hhigh⟩, by decide, (hnumbers _ hlow hhigh).2.1⟩
  · exact ((htexts _).2.1 _).mpr ⟨hcount, by decide, by decide⟩
  · exact (htexts _).2.2.2.2.1.mpr ⟨0, hzero, by decide, by decide⟩

end RequestQuery
