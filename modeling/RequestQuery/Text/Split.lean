/-!
# Splitting at a character

A text has one part more than it has separators; joining the parts gives the text back.
-/

namespace RequestQuery

/-- The parts between separators, empty ones included. -/
def splitAtChar (separator : Char) : List Char → List (List Char)
  | [] => [[]]
  | c :: cs =>
      if c = separator then [] :: splitAtChar separator cs
      else
        match splitAtChar separator cs with
        | [] => [[c]]
        | part :: parts => (c :: part) :: parts

theorem splitAtChar_ne_nil (separator : Char) (cs : List Char) : splitAtChar separator cs ≠ [] := by
  cases cs with
  | nil => simp [splitAtChar]
  | cons c cs =>
      simp only [splitAtChar]
      split
      · simp
      · split <;> simp

/-- No part holds a separator. -/
theorem not_mem_of_mem_splitAtChar {separator : Char} {cs part : List Char}
    (h : part ∈ splitAtChar separator cs) : separator ∉ part := by
  induction cs generalizing part with
  | nil => simp [splitAtChar] at h; simp [h]
  | cons c cs ih =>
      simp only [splitAtChar] at h
      split at h
      · rcases List.mem_cons.1 h with h | h
        · simp [h]
        · exact ih h
      · next hc =>
          split at h
          · simp only [List.mem_singleton] at h
            simp [h, Ne.symm hc]
          · next first more hparts =>
              rw [hparts] at ih
              rcases List.mem_cons.1 h with h | h
              · subst h
                simpa [Ne.symm hc] using ih (List.mem_cons_self ..)
              · exact ih (List.mem_cons_of_mem _ h)

/-- A text without separators is its only part. -/
theorem splitAtChar_of_not_mem {separator : Char} {cs : List Char} (h : separator ∉ cs) :
    splitAtChar separator cs = [cs] := by
  induction cs with
  | nil => rfl
  | cons c cs ih =>
      simp only [List.mem_cons, not_or] at h
      simp [splitAtChar, Ne.symm h.1, ih h.2]

theorem intercalate_splitAtChar (separator : Char) (cs : List Char) :
    [separator].intercalate (splitAtChar separator cs) = cs := by
  induction cs with
  | nil => rfl
  | cons c cs ih =>
      simp only [splitAtChar]
      cases hparts : splitAtChar separator cs with
      | nil => exact absurd hparts (splitAtChar_ne_nil separator cs)
      | cons part parts =>
          rw [hparts] at ih
          by_cases h : c = separator
          · simp only [h, if_true, List.intercalate, List.intersperse_cons_cons,
              List.flatten_cons] at ih ⊢
            simp [ih]
          · simp only [h, if_false]
            cases parts with
            | nil => simpa [List.intercalate] using ih
            | cons next more =>
                simp only [List.intercalate, List.intersperse_cons_cons, List.flatten_cons] at ih ⊢
                simp [← ih]

theorem splitAtChar_append_cons {separator : Char} {part : List Char} (h : separator ∉ part)
    (cs : List Char) :
    splitAtChar separator (part ++ separator :: cs) = part :: splitAtChar separator cs := by
  induction part with
  | nil => simp [splitAtChar]
  | cons c part ih =>
      simp only [List.mem_cons, not_or] at h
      simp [splitAtChar, Ne.symm h.1, ih h.2]

/-- Parts without separators are read back from the text that joins them. -/
theorem splitAtChar_intercalate {separator : Char} {parts : List (List Char)} (hne : parts ≠ [])
    (h : ∀ part ∈ parts, separator ∉ part) :
    splitAtChar separator ([separator].intercalate parts) = parts := by
  induction parts with
  | nil => exact absurd rfl hne
  | cons part parts ih =>
      have hpart := h part (List.mem_cons_self ..)
      cases parts with
      | nil => simpa [List.intercalate] using splitAtChar_of_not_mem hpart
      | cons next more =>
          have hrest := ih (by simp) fun p hp => h p (List.mem_cons_of_mem _ hp)
          have hjoin : [separator].intercalate (part :: next :: more) =
              part ++ separator :: [separator].intercalate (next :: more) := by
            simp [List.intercalate]
          rw [hjoin, splitAtChar_append_cons hpart, hrest]

end RequestQuery
