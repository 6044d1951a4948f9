import RequestQuery.Number.Decimal

/-!
# Digits of decimals

Digits that fit the mantissa are all kept, in front of the point and behind it. So the digits of a
written decimal are read back as its mantissa and scale.
-/

namespace RequestQuery

theorem length_fixedDigits (width n : Nat) : (fixedDigits width n).length = width := by
  induction width generalizing n with
  | zero => rfl
  | succ width ih => rw [fixedDigits, List.length_append, ih, List.length_singleton]

theorem all_isDigit_fixedDigits (width n : Nat) : (fixedDigits width n).all Char.isDigit = true := by
  induction width generalizing n with
  | zero => rfl
  | succ width ih =>
      have hdigit : (Nat.digitChar (n % 10)).isDigit = true := by
        rw [Nat.isDigit_digitChar, decide_eq_true_eq]
        exact Nat.mod_lt n (by decide)
      rw [fixedDigits, List.all_append, ih, List.all_cons, hdigit, List.all_nil]
      rfl

theorem ofDigitChars_fixedDigits (width n start : Nat) :
    Nat.ofDigitChars 10 (fixedDigits width n) start =
      Nat.pow 10 width * start + n % Nat.pow 10 width := by
  induction width generalizing n with
  | zero => simp [fixedDigits, Nat.mod_one]
  | succ width ih =>
      have hlast : n % 10 < 10 := Nat.mod_lt n (by decide)
      have hpower : Nat.pow 10 (width + 1) = 10 * Nat.pow 10 width := Nat.pow_succ'
      have hmod : n % (10 * Nat.pow 10 width) = n % 10 + 10 * (n / 10 % Nat.pow 10 width) :=
        Nat.mod_mul
      rw [fixedDigits, Nat.ofDigitChars_append, ih, Nat.ofDigitChars_cons_digitChar_of_lt_ten hlast,
        Nat.ofDigitChars_nil, hpower, hmod, Nat.mul_add, Nat.mul_assoc]
      omega

theorem all_isDigit_toDigits (n : Nat) : (Nat.toDigits 10 n).all Char.isDigit = true :=
  List.all_eq_true.mpr fun _ hc => Nat.isDigit_of_mem_toDigits (by decide) (by decide) hc

namespace Decimal

theorem le_ofDigitChars (start : Nat) (digits : List Char) :
    start ≤ Nat.ofDigitChars 10 digits start := by
  rw [Nat.ofDigitChars_eq_ofDigitChars_zero]
  have hpos : 0 < 10 ^ digits.length := Nat.pow_pos (by decide)
  have hle : start ≤ 10 ^ digits.length * start := Nat.le_mul_of_pos_left start hpos
  omega

theorem readWhole_eq_some {digits : List Char} {start : Nat}
    (h : Nat.ofDigitChars 10 digits start < mantissaBound) :
    readWhole start digits = some (Nat.ofDigitChars 10 digits start) := by
  induction digits generalizing start with
  | nil => rfl
  | cons c digits ih =>
      rw [Nat.ofDigitChars_cons] at h ⊢
      have hnext : 10 * start + digitValue c < mantissaBound :=
        Nat.lt_of_le_of_lt (le_ofDigitChars _ digits) h
      simp only [readWhole, hnext, if_true]
      exact ih h

/-- The digits behind the point are kept if number and scale are within their bounds. -/
theorem readFraction_eq_kept {digits : List Char} {start scale : Nat}
    (h : Nat.ofDigitChars 10 digits start < mantissaBound) (hscale : scale + digits.length ≤ maxScale) :
    readFraction start scale digits =
      .kept (Nat.ofDigitChars 10 digits start) (scale + digits.length) := by
  induction digits generalizing start scale with
  | nil => rfl
  | cons c digits ih =>
      rw [Nat.ofDigitChars_cons] at h ⊢
      have hlength : scale + (c :: digits).length = scale + 1 + digits.length := by
        rw [List.length_cons]
        omega
      rw [hlength] at hscale ⊢
      have hnext : scale < maxScale ∧ 10 * start + digitValue c < mantissaBound :=
        ⟨by omega, Nat.lt_of_le_of_lt (le_ofDigitChars _ digits) h⟩
      simp only [readFraction, hnext, and_self, if_true]
      exact ih h (by omega)

theorem accumulate_eq_kept {whole fraction : List Char}
    (h : Nat.ofDigitChars 10 (whole ++ fraction) 0 < mantissaBound)
    (hscale : fraction.length ≤ maxScale) :
    accumulate whole fraction =
      .kept (Nat.ofDigitChars 10 (whole ++ fraction) 0) fraction.length := by
  rw [Nat.ofDigitChars_append] at h ⊢
  have hwhole := readWhole_eq_some (Nat.lt_of_le_of_lt (le_ofDigitChars _ fraction) h)
  rw [← Nat.zero_add fraction.length] at hscale ⊢
  rw [accumulate, hwhole]
  exact readFraction_eq_kept h hscale

theorem eq_of_readWhole {digits : List Char} {start mantissa : Nat}
    (h : readWhole start digits = some mantissa) : mantissa = Nat.ofDigitChars 10 digits start := by
  induction digits generalizing start with
  | nil => exact (Option.some.inj h).symm
  | cons c digits ih =>
      simp only [readWhole] at h
      split at h
      · rw [Nat.ofDigitChars_cons]
        exact ih h
      · cases h

theorem roundAt_ne_kept (mantissa scale digit m s : Nat) :
    roundAt mantissa scale digit ≠ .kept m s := by
  unfold roundAt
  repeat' split
  all_goals simp

theorem eq_of_readFraction {digits : List Char} {start scale m s : Nat}
    (h : readFraction start scale digits = .kept m s) :
    m = Nat.ofDigitChars 10 digits start ∧ s = scale + digits.length := by
  induction digits generalizing start scale with
  | nil =>
      cases h
      exact ⟨rfl, rfl⟩
  | cons c digits ih =>
      simp only [readFraction] at h
      split at h
      · obtain ⟨hm, hs⟩ := ih h
        rw [Nat.ofDigitChars_cons, List.length_cons]
        exact ⟨hm, by omega⟩
      · exact absurd h (roundAt_ne_kept _ _ _ m s)

/-- The other way round, what is kept are all digits. -/
theorem eq_of_accumulate {whole fraction : List Char} {m s : Nat}
    (h : accumulate whole fraction = .kept m s) :
    m = Nat.ofDigitChars 10 (whole ++ fraction) 0 ∧ s = fraction.length := by
  unfold accumulate at h
  split at h
  next mantissa hwhole =>
    obtain ⟨hm, hs⟩ := eq_of_readFraction h
    rw [Nat.ofDigitChars_append, ← eq_of_readWhole hwhole]
    exact ⟨hm, by omega⟩
  next => cases h

theorem accumulate_written (d : Decimal) :
    accumulate (Nat.toDigits 10 (d.mantissa / Nat.pow 10 d.scale))
      (fixedDigits d.scale (d.mantissa % Nat.pow 10 d.scale)) = .kept d.mantissa d.scale := by
  have hvalue : Nat.ofDigitChars 10 (Nat.toDigits 10 (d.mantissa / Nat.pow 10 d.scale) ++
      fixedDigits d.scale (d.mantissa % Nat.pow 10 d.scale)) 0 = d.mantissa := by
    rw [Nat.ofDigitChars_append, Nat.ofDigitChars_ten_toDigits, ofDigitChars_fixedDigits,
      Nat.mod_mod, Nat.div_add_mod]
  rw [accumulate_eq_kept, hvalue, length_fixedDigits]
  · rw [hvalue]
    exact d.mantissa_lt
  · rw [length_fixedDigits]
    exact d.scale_le

theorem eq_of_signed? {negative : Bool} {mantissa scale : Nat} {d : Decimal}
    (h : signed? negative mantissa scale = some d) :
    d.negative = (negative && mantissa != 0) ∧ d.mantissa = mantissa ∧ d.scale = scale := by
  unfold signed? ofParts? at h
  split at h <;> cases h
  exact ⟨rfl, rfl, rfl⟩

theorem signed?_parts {d : Decimal} (h : d.negative = true → d.mantissa ≠ 0) :
    signed? d.negative d.mantissa d.scale = some d := by
  have hsign : (d.negative && d.mantissa != 0) = d.negative := by
    cases hnegative : d.negative with
    | false => rfl
    | true => simpa using h hnegative
  rw [signed?, hsign, ofParts?, dif_pos ⟨d.mantissa_lt, d.scale_le⟩]

end Decimal

end RequestQuery
