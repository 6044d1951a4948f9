import RequestQuery.Filter.Literal
import RequestQuery.Reading.Nesting

/-!
# Balanced texts

A text is balanced when its brackets match outside quoted strings. A scan for brackets passes over a
balanced text and stands behind it as it stood before.
-/

namespace RequestQuery

/-- A character that says nothing about quotes and brackets. -/
def isPlain (c : Char) : Bool := !(c == '"' || Nesting.isOpener c || Nesting.isCloser c)

/-- Brackets match outside quoted strings, and at most `depth` of them stand around one another. -/
inductive Balanced : Nat → List Char → Prop where
  | nil (depth : Nat) : Balanced depth []
  | plain (depth : Nat) {c : Char} (h : isPlain c = true) : Balanced depth [c]
  | quoted (depth : Nat) (cs : List Char) :
      Balanced depth ('"' :: cs.flatMap Literal.escapeChar ++ ['"'])
  | parentheses {depth : Nat} {inner : List Char} (h : Balanced depth inner) :
      Balanced (depth + 1) ('(' :: (inner ++ [')']))
  | brackets {depth : Nat} {inner : List Char} (h : Balanced depth inner) :
      Balanced (depth + 1) ('[' :: (inner ++ [']']))
  | append {depth : Nat} {first second : List Char} (h : Balanced depth first)
      (h' : Balanced depth second) : Balanced depth (first ++ second)

theorem Balanced.of_all {cs : List Char} (h : cs.all isPlain = true) (depth : Nat) :
    Balanced depth cs := by
  induction cs with
  | nil => exact .nil depth
  | cons c cs ih =>
      rw [List.all_cons, Bool.and_eq_true] at h
      exact .append (.plain depth h.1) (ih h.2)

theorem all_isPlain {p : Char → Bool}
    (hp : ['"', '(', ')', '[', ']'].all (fun c => !p c) = true) {cs : List Char}
    (h : cs.all p = true) : cs.all isPlain = true := by
  rw [List.all_eq_true] at h hp ⊢
  intro c hc
  have hnot : c ∉ ['"', '(', ')', '[', ']'] := by
    intro hmem
    simpa [h c hc] using hp c hmem
  simp only [List.mem_cons, List.not_mem_nil, or_false, not_or] at hnot
  simp [isPlain, Nesting.isOpener, Nesting.isCloser, hnot]

namespace Nesting

variable {limit depth offset : Nat}

theorem firstTooDeep_plain {c : Char} (h : isPlain c = true) (rest : List Char) :
    firstTooDeep limit .outside depth offset (c :: rest) =
      firstTooDeep limit .outside depth (offset + c.utf8Size) rest := by
  simp only [isPlain, Bool.not_eq_true', Bool.or_eq_false_iff, beq_eq_false_iff_ne, ne_eq] at h
  simp [firstTooDeep, QuoteState.skips, QuoteState.step, h]

theorem firstTooDeep_opener {c : Char} (hc : isOpener c = true) (h : depth < limit)
    (rest : List Char) :
    firstTooDeep limit .outside depth offset (c :: rest) =
      firstTooDeep limit .outside (depth + 1) (offset + c.utf8Size) rest := by
  have hlimit : ¬limit < depth + 1 := by omega
  have hcases := hc
  simp only [isOpener, Bool.or_eq_true, beq_iff_eq] at hcases
  rcases hcases with rfl | rfl <;>
    simp [firstTooDeep, QuoteState.skips, QuoteState.step, hc, hlimit]

theorem firstTooDeep_opener_past {c : Char} (hc : isOpener c = true) (h : ¬depth < limit)
    (rest : List Char) :
    firstTooDeep limit .outside depth offset (c :: rest) = some offset := by
  have hlimit : limit < depth + 1 := by omega
  have hcases := hc
  simp only [isOpener, Bool.or_eq_true, beq_iff_eq] at hcases
  rcases hcases with rfl | rfl <;> simp [firstTooDeep, QuoteState.skips, hc, hlimit]

theorem firstTooDeep_closer {c : Char} (hc : isCloser c = true) (rest : List Char) :
    firstTooDeep limit .outside depth offset (c :: rest) =
      firstTooDeep limit .outside (depth - 1) (offset + c.utf8Size) rest := by
  have hcases := hc
  simp only [isCloser, Bool.or_eq_true, beq_iff_eq] at hcases
  rcases hcases with rfl | rfl <;>
    simp [firstTooDeep, QuoteState.skips, QuoteState.step, hc, isOpener]

private theorem firstTooDeep_escapeChar (c : Char) (rest : List Char) :
    firstTooDeep limit .inside depth offset (Literal.escapeChar c ++ rest) =
      firstTooDeep limit .inside depth (offset + byteLength (Literal.escapeChar c)) rest := by
  by_cases hquote : c = '"'
  · subst hquote
    simp [Literal.escapeChar, firstTooDeep, QuoteState.skips, QuoteState.step, Nat.add_assoc]
  · by_cases hslash : c = '\\'
    · subst hslash
      simp [Literal.escapeChar, firstTooDeep, QuoteState.skips, QuoteState.step, Nat.add_assoc]
    · simp [Literal.escapeChar, firstTooDeep, QuoteState.skips, QuoteState.step, hquote, hslash]

private theorem firstTooDeep_inside (cs rest : List Char) :
    firstTooDeep limit .inside depth offset (cs.flatMap Literal.escapeChar ++ '"' :: rest) =
      firstTooDeep limit .outside depth
        (offset + byteLength (cs.flatMap Literal.escapeChar ++ ['"'])) rest := by
  induction cs generalizing offset with
  | nil => simp [firstTooDeep, QuoteState.skips, QuoteState.step]
  | cons c cs ih =>
      rw [List.flatMap_cons, List.append_assoc, firstTooDeep_escapeChar, ih, Nat.add_assoc,
        ← byteLength_append, List.append_assoc]

private theorem firstTooDeep_quoted (cs rest : List Char) :
    firstTooDeep limit .outside depth offset
        ('"' :: cs.flatMap Literal.escapeChar ++ ['"'] ++ rest) =
      firstTooDeep limit .outside depth
        (offset + byteLength ('"' :: cs.flatMap Literal.escapeChar ++ ['"'])) rest := by
  have hquote : firstTooDeep limit .outside depth offset
      ('"' :: cs.flatMap Literal.escapeChar ++ ['"'] ++ rest) =
      firstTooDeep limit .inside depth (offset + '"'.utf8Size)
        (cs.flatMap Literal.escapeChar ++ '"' :: rest) := by
    simp [firstTooDeep, QuoteState.skips, QuoteState.step]
  rw [hquote, firstTooDeep_inside, Nat.add_assoc]
  rfl

/-- Nothing in a balanced text is too deep unless its own depth exceeds what is left. -/
theorem firstTooDeep_balanced {cs : List Char} {d : Nat} (h : Balanced d cs) (hd : depth + d ≤ limit)
    (rest : List Char) :
    firstTooDeep limit .outside depth offset (cs ++ rest) =
      firstTooDeep limit .outside depth (offset + byteLength cs) rest := by
  induction h generalizing depth offset rest with
  | nil => rfl
  | plain d hc => exact firstTooDeep_plain hc rest
  | quoted d cs => exact firstTooDeep_quoted cs rest
  | append _ _ ih ih' =>
      rw [List.append_assoc, ih hd, ih' hd, byteLength_append, Nat.add_assoc]
  | parentheses h ih | brackets h ih =>
      simp only [List.cons_append, List.append_assoc, List.nil_append]
      rw [firstTooDeep_opener rfl (by omega), ih (by omega), firstTooDeep_closer rfl]
      simp [Nat.add_assoc]

theorem firstTooDeep_behind_opener {c : Char} (hc : isOpener c = true) {rest : List Char}
    (h : firstTooDeep limit .outside depth offset (c :: rest) = none) :
    depth < limit ∧ firstTooDeep limit .outside (depth + 1) (offset + c.utf8Size) rest = none := by
  by_cases hdepth : depth < limit
  · rw [firstTooDeep_opener hc hdepth] at h
    exact ⟨hdepth, h⟩
  · rw [firstTooDeep_opener_past hc hdepth] at h
    cases h

theorem firstTooDeep_behind {cs rest : List Char} {d : Nat} (h : Balanced d cs)
    (hscan : firstTooDeep limit .outside depth offset (cs ++ rest) = none) :
    firstTooDeep limit .outside depth (offset + byteLength cs) rest = none := by
  induction h generalizing depth offset rest with
  | nil => exact hscan
  | plain d hc => exact (firstTooDeep_plain hc rest).symm.trans hscan
  | quoted d cs => exact (firstTooDeep_quoted cs rest).symm.trans hscan
  | append _ _ ih ih' =>
      rw [List.append_assoc] at hscan
      have hsecond := ih' (ih hscan)
      rwa [byteLength_append, ← Nat.add_assoc]
  | parentheses h ih | brackets h ih =>
      simp only [List.cons_append, List.append_assoc, List.nil_append] at hscan
      have hinner := ih (firstTooDeep_behind_opener rfl hscan).2
      rw [firstTooDeep_closer rfl] at hinner
      simpa [Nat.add_assoc] using hinner

theorem check_eq_ok_of_balanced {source : String} {d : Nat} (h : Balanced d source.toList)
    (hd : d ≤ limit) : check source limit = .ok () := by
  have hscan : firstTooDeep limit .outside 0 0 (source.toList ++ []) = none :=
    firstTooDeep_balanced h (by omega) []
  rw [List.append_nil] at hscan
  rw [check, hscan]

end Nesting

end RequestQuery
