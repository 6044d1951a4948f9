import RequestQuery.Proofs.Reading.Balanced
import RequestQuery.Proofs.Select.Rendering

/-!
# Beginnings of selects

What has been read of a select, wherever the reading stops, is a beginning of one: names, parameters,
points, commas and brackets in the order of the grammar, with some groups still open. The check of
nesting counts every bracket outside strings, also in values, which the grammar takes as they are. It
counts the open groups, or more, as long as no value read inside a group closes more brackets than it
opens.
-/

namespace RequestQuery

/-- Where a reading stands in a list of items. -/
inductive SelectPlace where
  /-- An item has to follow. -/
  | item
  /-- Behind the bracket that opens a group, where an item may follow. -/
  | opened
  | step
  deriving DecidableEq, Repr

/-- A beginning of a select. `inner` tells whether the names of the list that is being read may have
braces, and `outer` tells it for the lists around that one, so each of its entries is an open group. -/
inductive Beginning (braces : Bool) : SelectPlace → Bool → List Bool → List Char → Prop where
  | start : Beginning braces .item braces [] []
  | named {place : SelectPlace} {inner : Bool} {outer : List Bool} {front name : List Char}
      (h : Beginning braces place inner outer front) (first : place ≠ .step)
      (run : IsRun (nameClass inner) name) : Beginning braces .step inner outer (front ++ name)
  | point {inner : Bool} {outer : List Bool} {front name : List Char}
      (h : Beginning braces .step inner outer front) (run : IsRun (nameClass false) name) :
      Beginning braces .step inner outer (front ++ '.' :: name)
  | parameter {inner : Bool} {outer : List Bool} {front : List Char} {p : RawParameter}
      (h : Beginning braces .step inner outer front) (well : p.WellFormed) :
      Beginning braces .step inner outer (front ++ p.chars)
  | comma {inner : Bool} {outer : List Bool} {front : List Char}
      (h : Beginning braces .step inner outer front) :
      Beginning braces .item inner outer (front ++ [','])
  | group {place : SelectPlace} {inner : Bool} {outer : List Bool} {front : List Char}
      (h : Beginning braces place inner outer front) (first : place ≠ .step) :
      Beginning braces .opened inner (inner :: outer) (front ++ ['['])
  | nextGroup {inner : Bool} {outer : List Bool} {front : List Char}
      (h : Beginning braces .step inner outer front) :
      Beginning braces .opened false (inner :: outer) (front ++ ['['])
  | close {place : SelectPlace} {inner around : Bool} {outer : List Bool} {front : List Char}
      (h : Beginning braces place inner (around :: outer) front) (last : place ≠ .item) :
      Beginning braces .step around outer (front ++ [']'])

namespace Nesting

/-- How often a character stands outside strings. -/
def countOutside (d : Char) : QuoteState → List Char → Nat
  | _, [] => 0
  | quotes, c :: cs =>
      (if !quotes.skips c && c == d then 1 else 0) + countOutside d (quotes.step c) cs

/-- A value does not close more brackets than it opens. -/
def keepsDepth (value : List Char) : Bool :=
  decide (countOutside ']' .outside value ≤ countOutside '[' .outside value)

/-- No value that is read inside a group closes more brackets than it opens. -/
def ValuesKeepDepth (braces : Bool) (text : List Char) : Prop :=
  ∀ (p : RawParameter) (inner around : Bool) (outer : List Bool) (front rest : List Char),
    Beginning braces .step inner (around :: outer) front → p.WellFormed →
      text = front ++ (p.chars ++ rest) → keepsDepth p.value.value.toList = true

variable {limit : Nat}

theorem firstTooDeep_relax {cs : List Char} {quotes : QuoteState}
    {limit' depth offset depth' offset' : Nat}
    (h : firstTooDeep limit quotes depth offset cs = none) (hle : depth' ≤ depth)
    (hlimit : limit ≤ limit') : firstTooDeep limit' quotes depth' offset' cs = none := by
  induction cs generalizing quotes depth offset depth' offset' with
  | nil => rfl
  | cons c cs ih =>
      unfold firstTooDeep at h ⊢
      simp only at h ⊢
      by_cases hskip : quotes.skips c = true
      · rw [if_pos hskip] at h ⊢
        exact ih h hle
      · rw [if_neg hskip] at h ⊢
        by_cases hopener : isOpener c = true
        · rw [if_pos hopener] at h ⊢
          by_cases hpast : limit < depth + 1
          · rw [if_pos hpast] at h
            cases h
          · rw [if_neg hpast] at h
            rw [if_neg (by omega)]
            exact ih h (by omega)
        · rw [if_neg hopener] at h ⊢
          by_cases hcloser : isCloser c = true
          · rw [if_pos hcloser] at h ⊢
            exact ih h (by omega)
          · rw [if_neg hcloser] at h ⊢
            exact ih h hle

theorem firstTooDeep_mono {cs : List Char} {quotes : QuoteState} {depth offset depth' offset' : Nat}
    (h : firstTooDeep limit quotes depth offset cs = none) (hle : depth' ≤ depth) :
    firstTooDeep limit quotes depth' offset' cs = none :=
  firstTooDeep_relax h hle (Nat.le_refl limit)

theorem check_eq_ok_iff {source : String} :
    check source limit = .ok () ↔ firstTooDeep limit .outside 0 0 source.toList = none := by
  unfold check
  cases firstTooDeep limit .outside 0 0 source.toList <;> simp

theorem check_mono {source : String} {limit' : Nat} (hlimit : limit ≤ limit')
    (h : check source limit = .ok ()) : check source limit' = .ok () := by
  rw [check_eq_ok_iff] at h ⊢
  exact firstTooDeep_relax h (Nat.le_refl 0) hlimit

private theorem outside_of_not_skips {quotes : QuoteState} {c : Char} (h : ¬quotes.skips c = true) :
    quotes = .outside ∧ c ≠ '"' := by
  cases quotes with
  | outside => exact ⟨rfl, by simpa [QuoteState.skips] using h⟩
  | inside => exact absurd rfl h
  | escaped => exact absurd rfl h

private theorem bracket_or_plain {c : Char} (h : c ≠ '"') :
    c = '(' ∨ c = ')' ∨ c = '[' ∨ c = ']' ∨ isPlain c = true := by
  grind [isPlain, isOpener, isCloser]

/-- Behind a value in which parentheses match, at least as many brackets count as open as there were
before it and it opens, less those it closes. -/
theorem firstTooDeep_value {value rest : List Char} {quotes : QuoteState} {open' depth offset : Nat}
    (heven : closesEven quotes open' value = true)
    (hscan : firstTooDeep limit quotes depth offset (value ++ rest) = none) {behind : Nat}
    (hbehind : behind = 0 ∨ behind + open' + countOutside ']' quotes value ≤
      depth + countOutside '[' quotes value) (offset' : Nat) :
    firstTooDeep limit .outside behind offset' rest = none := by
  induction value generalizing quotes open' depth offset with
  | nil =>
      simp only [closesEven, Bool.and_eq_true, beq_iff_eq] at heven
      simp only [countOutside] at hbehind
      rw [heven.1] at hscan
      exact firstTooDeep_mono hscan (by omega)
  | cons c value ih =>
      rw [closesEven] at heven
      rw [List.cons_append] at hscan
      by_cases hskip : quotes.skips c = true
      · simp only [depthBehind, hskip, if_true] at heven
        simp only [firstTooDeep, hskip, if_true] at hscan
        simp only [countOutside, hskip, Bool.not_true, Bool.false_and, Bool.false_eq_true,
          if_false, Nat.zero_add] at hbehind
        exact ih heven hscan hbehind
      · obtain ⟨rfl, hquote⟩ := outside_of_not_skips hskip
        have hstep : QuoteState.outside.step c = .outside := if_neg hquote
        simp only [countOutside, hskip, Bool.not_false, Bool.true_and, beq_iff_eq, hstep] at hbehind
        simp only [depthBehind, hskip, Bool.false_eq_true, if_false, hstep] at heven
        rcases bracket_or_plain hquote with rfl | rfl | rfl | rfl | hplain
        · have hinside := (firstTooDeep_behind_opener rfl hscan).2
          simp only [Char.reduceEq, if_false, Nat.zero_add] at hbehind
          exact ih heven hinside (by omega)
        · rw [firstTooDeep_closer rfl] at hscan
          simp only [Char.reduceEq, if_false, Nat.zero_add] at hbehind
          cases open' with
          | zero => simp at heven
          | succ open' => exact ih heven hscan (by omega)
        · have hinside := (firstTooDeep_behind_opener rfl hscan).2
          simp only [Char.reduceEq, if_false, if_true, Nat.zero_add] at hbehind
          exact ih heven hinside (by omega)
        · rw [firstTooDeep_closer rfl] at hscan
          simp only [Char.reduceEq, if_false, if_true, Nat.zero_add] at hbehind
          exact ih heven hscan (by omega)
        · rw [firstTooDeep_plain hplain] at hscan
          simp only [isPlain, isOpener, isCloser, Bool.not_eq_true', Bool.or_eq_false_iff,
            beq_eq_false_iff_ne, ne_eq] at hplain
          simp only [hplain, if_false] at heven
          simp only [hplain, if_false, Nat.zero_add] at hbehind
          exact ih heven hscan hbehind

theorem balanced_name {braces : Bool} {name : List Char} (h : IsRun (nameClass braces) name) :
    Balanced 0 name :=
  .of_all (all_isPlain (by cases braces <;> decide) h.2) 0

theorem firstTooDeep_parameter {p : RawParameter} (hwell : p.WellFormed) {depth offset : Nat}
    {rest : List Char} (hscan : firstTooDeep limit .outside depth offset (p.chars ++ rest) = none)
    (hkeeps : depth = 0 ∨ keepsDepth p.value.value.toList = true) (offset' : Nat) :
    firstTooDeep limit .outside depth offset' rest = none := by
  have hchars : p.chars ++ rest =
      '(' :: ((p.name.value.toList ++ ['=']) ++ (p.value.value.toList ++ ')' :: rest)) := by
    simp [RawParameter.chars]
  have hname : Balanced 0 (p.name.value.toList ++ ['=']) :=
    (@balanced_name false _ hwell.name).append (.plain 0 (by decide))
  rw [hchars] at hscan
  have hvalue := firstTooDeep_behind hname (firstTooDeep_behind_opener rfl hscan).2
  obtain ⟨behind, hbehind, hle⟩ : ∃ behind, (behind = 0 ∨
      behind + 0 + countOutside ']' .outside p.value.value.toList ≤
        depth + 1 + countOutside '[' .outside p.value.value.toList) ∧ depth ≤ behind - 1 := by
    rcases hkeeps with rfl | hkeeps
    · exact ⟨0, .inl rfl, Nat.le_refl 0⟩
    · have hcount := of_decide_eq_true hkeeps
      exact ⟨depth + 1, .inr (by omega), Nat.le_refl depth⟩
  have hcloser := firstTooDeep_value hwell.even hvalue hbehind 0
  rw [firstTooDeep_closer rfl] at hcloser
  exact firstTooDeep_mono hcloser hle

end Nesting

open Nesting

/-- A text in which nothing is too deep, behind a beginning of it with as many brackets counted as
groups are open. -/
theorem Beginning.counted {braces : Bool} {limit : Nat} {text : List Char}
    (hcheck : firstTooDeep limit .outside 0 0 text = none) (hvalues : ValuesKeepDepth braces text)
    {place : SelectPlace} {inner : Bool} {outer : List Bool} {front rest : List Char}
    (h : Beginning braces place inner outer front) (htext : text = front ++ rest) :
    firstTooDeep limit .outside outer.length 0 rest = none ∧ outer.length ≤ limit := by
  induction h generalizing rest with
  | start =>
      rw [htext] at hcheck
      exact ⟨hcheck, Nat.zero_le limit⟩
  | named _ _ run ih =>
      rw [List.append_assoc] at htext
      obtain ⟨hscan, hle⟩ := ih htext
      exact ⟨firstTooDeep_mono (firstTooDeep_behind (balanced_name run) hscan) (Nat.le_refl _), hle⟩
  | point _ run ih =>
      rw [List.append_assoc] at htext
      obtain ⟨hscan, hle⟩ := ih htext
      have hname : Balanced 0 (['.'] ++ _) := (Balanced.plain 0 (by decide)).append (balanced_name run)
      exact ⟨firstTooDeep_mono (firstTooDeep_behind hname hscan) (Nat.le_refl _), hle⟩
  | @parameter inner outer front p h well ih =>
      rw [List.append_assoc] at htext
      obtain ⟨hscan, hle⟩ := ih htext
      refine ⟨firstTooDeep_parameter well hscan ?_ 0, hle⟩
      cases outer with
      | nil => exact .inl rfl
      | cons around outer => exact .inr (hvalues p inner around outer front rest h well htext)
  | comma _ ih =>
      rw [List.append_assoc] at htext
      obtain ⟨hscan, hle⟩ := ih htext
      have hcomma : Balanced 0 [','] := .plain 0 (by decide)
      exact ⟨firstTooDeep_mono (firstTooDeep_behind hcomma hscan) (Nat.le_refl _), hle⟩
  | group _ _ ih | nextGroup _ ih =>
      rw [List.append_assoc] at htext
      obtain ⟨hlt, hscan⟩ := firstTooDeep_behind_opener rfl (ih htext).1
      exact ⟨firstTooDeep_mono hscan (Nat.le_refl _), hlt⟩
  | close _ _ ih =>
      rw [List.append_assoc] at htext
      obtain ⟨hscan, hle⟩ := ih htext
      rw [List.singleton_append, firstTooDeep_closer rfl] at hscan
      exact ⟨firstTooDeep_mono hscan (Nat.le_refl _), Nat.le_of_succ_le hle⟩

namespace Nesting

/-- No value closes more brackets than it opens, in a group or not. The next `passed` characters belong
to a value that has been looked at. -/
def scanValues : Nat → List Char → Bool
  | _, [] => true
  | passed + 1, _ :: cs => scanValues passed cs
  | 0, c :: cs =>
      if c = '=' then
        keepsDepth (valueChars .outside 0 cs) && scanValues (valueChars .outside 0 cs).length cs
      else scanValues 0 cs

private theorem scanValues_passed (cs rest : List Char) :
    scanValues cs.length (cs ++ rest) = scanValues 0 rest := by
  induction cs with
  | nil => rfl
  | cons c cs ih => exact ih

private theorem scanValues_behind {cs rest : List Char} (h : '=' ∉ cs)
    (hscan : scanValues 0 (cs ++ rest) = true) : scanValues 0 rest = true := by
  induction cs with
  | nil => exact hscan
  | cons c cs ih =>
      rw [List.mem_cons, not_or] at h
      rw [List.cons_append, scanValues, if_neg (Ne.symm h.1)] at hscan
      exact ih h.2 hscan

private theorem equals_not_mem_name {braces : Bool} {name : List Char}
    (h : IsRun (nameClass braces) name) : '=' ∉ name := by
  intro hmem
  have hclass := List.all_eq_true.mp h.2 '=' hmem
  cases braces <;> exact absurd hclass (by decide)

private theorem scanValues_parameter {p : RawParameter} (hwell : p.WellFormed) {rest : List Char}
    (hscan : scanValues 0 (p.chars ++ rest) = true) :
    keepsDepth p.value.value.toList = true ∧ scanValues 0 rest = true := by
  have hchars : p.chars ++ rest =
      ('(' :: p.name.value.toList) ++ '=' :: (p.value.value.toList ++ ')' :: rest) := by
    simp [RawParameter.chars]
  have hfront : '=' ∉ '(' :: p.name.value.toList := by
    have hname := @equals_not_mem_name false _ hwell.name
    simpa using hname
  rw [hchars] at hscan
  have hequals := scanValues_behind hfront hscan
  rw [scanValues, if_pos rfl, valueChars_of_closesEven hwell.even, scanValues_passed,
    Bool.and_eq_true] at hequals
  exact ⟨hequals.1, @scanValues_behind [')'] rest (by decide) hequals.2⟩

private theorem scanValues_beginning {braces : Bool} {place : SelectPlace} {inner : Bool}
    {outer : List Bool} {front rest : List Char} (h : Beginning braces place inner outer front)
    (hscan : scanValues 0 (front ++ rest) = true) : scanValues 0 rest = true := by
  induction h generalizing rest with
  | start => exact hscan
  | named _ _ run ih =>
      rw [List.append_assoc] at hscan
      exact scanValues_behind (equals_not_mem_name run) (ih hscan)
  | point _ run ih =>
      rw [List.append_assoc] at hscan
      have hname := equals_not_mem_name run
      exact scanValues_behind (by simpa using hname) (ih hscan)
  | parameter _ well ih =>
      rw [List.append_assoc] at hscan
      exact (scanValues_parameter well (ih hscan)).2
  | comma _ ih | group _ _ ih | nextGroup _ ih | close _ _ ih =>
      rw [List.append_assoc] at hscan
      exact scanValues_behind (by decide) (ih hscan)

/-- What a reading comes to as a value is what the scan takes for one. -/
theorem ValuesKeepDepth.of_scan {braces : Bool} {text : List Char} (h : scanValues 0 text = true) :
    ValuesKeepDepth braces text := by
  intro p inner around outer front rest hfront hwell htext
  rw [htext] at h
  exact (scanValues_parameter hwell (scanValues_beginning hfront h)).1

end Nesting

end RequestQuery
