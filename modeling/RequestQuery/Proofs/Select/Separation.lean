import RequestQuery.Proofs.Filter.Shift
import RequestQuery.Proofs.Select.NestingLimit

/-!
# Selects next to one another

Two selects with a comma between them have the items of both, those of the second moved behind the
first. The check of nesting goes over the comma as over any other character. No string is open there,
but brackets that values of parameters left open still count for what follows, and it may be refused
for them.
-/

namespace RequestQuery

namespace Nesting

/-- Where a check of nesting stands: with respect to strings, and with how many brackets open. -/
structure Scan where
  quotes : QuoteState
  depth : Nat

namespace Scan

def step (scan : Scan) (c : Char) : Scan where
  quotes := scan.quotes.step c
  depth :=
    if scan.quotes.skips c then scan.depth
    else if isOpener c then scan.depth + 1
    else if isCloser c then scan.depth - 1
    else scan.depth

/-- The state behind a text. -/
def behind (scan : Scan) (cs : List Char) : Scan := cs.foldl step scan

theorem behind_append (scan : Scan) (cs ds : List Char) :
    scan.behind (cs ++ ds) = (scan.behind cs).behind ds := List.foldl_append

end Scan

/-- How many brackets a text leaves open. -/
def leftOpen (cs : List Char) : Nat := (Scan.behind ⟨.outside, 0⟩ cs).depth

theorem firstTooDeep_cons (limit : Nat) (scan : Scan) (offset : Nat) (c : Char) (cs : List Char) :
    firstTooDeep limit scan.quotes scan.depth offset (c :: cs) =
      if scan.quotes.skips c = false ∧ isOpener c = true ∧ limit < scan.depth + 1 then some offset
      else firstTooDeep limit (scan.step c).quotes (scan.step c).depth (offset + c.utf8Size) cs := by
  rw [firstTooDeep]
  unfold Scan.step
  by_cases hskip : scan.quotes.skips c = true
  · simp [hskip]
  · by_cases hopener : isOpener c = true
    · simp [hskip, hopener]
    · by_cases hcloser : isCloser c = true <;> simp [hskip, hopener, hcloser]

/-- A check of two texts one after another is a check of the first, and of the second in the state
behind it. -/
theorem firstTooDeep_append (limit : Nat) (scan : Scan) (offset : Nat) (cs ds : List Char) :
    firstTooDeep limit scan.quotes scan.depth offset (cs ++ ds) =
      (firstTooDeep limit scan.quotes scan.depth offset cs).or
        (firstTooDeep limit (scan.behind cs).quotes (scan.behind cs).depth (offset + byteLength cs)
          ds) := by
  induction cs generalizing scan offset with
  | nil => rfl
  | cons c cs ih =>
      have hbehind : scan.behind (c :: cs) = (scan.step c).behind cs := rfl
      rw [List.cons_append, firstTooDeep_cons, firstTooDeep_cons, hbehind, byteLength_cons,
        ← Nat.add_assoc]
      split
      next => rfl
      next => exact ih (scan.step c) (offset + c.utf8Size)

/-- A scan comes out of a text outside strings, with at most `n` more brackets open than before. -/
def Leaves (n : Nat) (cs : List Char) : Prop :=
  ∀ depth, (Scan.behind ⟨.outside, depth⟩ cs).quotes = .outside ∧
    (Scan.behind ⟨.outside, depth⟩ cs).depth ≤ depth + n

namespace Leaves

theorem nil : Leaves 0 [] := fun _ => ⟨rfl, Nat.le_refl _⟩

theorem append {m n : Nat} {cs ds : List Char} (hcs : Leaves m cs) (hds : Leaves n ds) :
    Leaves (m + n) (cs ++ ds) := by
  intro depth
  obtain ⟨hquotes, hdepth⟩ := hcs depth
  rw [Scan.behind_append]
  generalize Scan.behind ⟨.outside, depth⟩ cs = scan at hquotes hdepth
  obtain ⟨quotes, inner⟩ := scan
  simp only at hquotes hdepth
  subst hquotes
  obtain ⟨hquotes', hdepth'⟩ := hds inner
  exact ⟨hquotes', by omega⟩

theorem plain {c : Char} (h : isPlain c = true) : Leaves 0 [c] := by
  simp only [isPlain, Bool.not_eq_true', Bool.or_eq_false_iff, beq_eq_false_iff_ne, ne_eq] at h
  intro depth
  simp [Scan.behind, Scan.step, QuoteState.step, QuoteState.skips, h]

theorem of_all {cs : List Char} (h : cs.all isPlain = true) : Leaves 0 cs := by
  induction cs with
  | nil => exact nil
  | cons c cs ih =>
      rw [List.all_cons, Bool.and_eq_true] at h
      exact (plain h.1).append (ih h.2)

theorem enclosed {opener closer : Char} (hopener : isOpener opener = true)
    (hcloser : isCloser closer = true) {n : Nat} {cs : List Char} (h : Leaves n cs) :
    Leaves n (opener :: (cs ++ [closer])) := by
  intro depth
  have hfirst : Scan.step ⟨.outside, depth⟩ opener = ⟨.outside, depth + 1⟩ := by
    simp only [isOpener, Bool.or_eq_true, beq_iff_eq] at hopener
    rcases hopener with rfl | rfl <;> rfl
  have hlast : ∀ scan : Scan, scan.quotes = .outside →
      scan.step closer = ⟨.outside, scan.depth - 1⟩ := by
    rintro ⟨quotes, inner⟩ rfl
    simp only [isCloser, Bool.or_eq_true, beq_iff_eq] at hcloser
    rcases hcloser with rfl | rfl <;> rfl
  obtain ⟨hquotes, hdepth⟩ := h (depth + 1)
  have hbehind : Scan.behind ⟨.outside, depth⟩ (opener :: (cs ++ [closer])) =
      (Scan.behind ⟨.outside, depth + 1⟩ cs).step closer := by
    rw [← hfirst]
    exact Scan.behind_append (Scan.step ⟨.outside, depth⟩ opener) cs [closer]
  rw [hbehind, hlast _ hquotes]
  exact ⟨rfl, by simp only; omega⟩

end Leaves

private theorem Scan.step_add (quotes : QuoteState) (depth more : Nat) (c : Char) :
    ∃ more', more' ≤ more ∧
      step ⟨quotes, more + depth⟩ c = ⟨quotes.step c, more' + (step ⟨quotes, depth⟩ c).depth⟩ := by
  unfold step
  by_cases hskip : quotes.skips c = true
  · exact ⟨more, Nat.le_refl _, by simp [hskip]⟩
  · by_cases hopener : isOpener c = true
    · exact ⟨more, Nat.le_refl _, by simp [hskip, hopener, Nat.add_assoc]⟩
    · by_cases hcloser : isCloser c = true
      · -- A closer that meets no bracket of its own closes one of those before the text.
        refine ⟨more + depth - 1 - (depth - 1), by omega, ?_⟩
        simp only [hskip, hopener, hcloser, Bool.false_eq_true, if_false, if_true, Scan.mk.injEq,
          true_and]
        omega
      · exact ⟨more, Nat.le_refl _, by simp [hskip, hopener, hcloser]⟩

private theorem Scan.behind_add_le (cs : List Char) (quotes : QuoteState) (depth more : Nat) :
    (behind ⟨quotes, more + depth⟩ cs).depth ≤ more + (behind ⟨quotes, depth⟩ cs).depth := by
  induction cs generalizing quotes depth more with
  | nil => exact Nat.le_refl _
  | cons c cs ih =>
      obtain ⟨more', hle, hstep⟩ := step_add quotes depth more c
      have hrest := ih (quotes.step c) (step ⟨quotes, depth⟩ c).depth more'
      change (behind (step ⟨quotes, more + depth⟩ c) cs).depth ≤
        more + (behind (step ⟨quotes, depth⟩ c) cs).depth
      rw [hstep]
      exact hrest.trans (Nat.add_le_add_right hle _)

private theorem Scan.quotes_of_closesEven {cs : List Char} {quotes : QuoteState} {opened : Nat}
    (h : closesEven quotes opened cs = true) (depth : Nat) :
    (behind ⟨quotes, depth⟩ cs).quotes = .outside := by
  induction cs generalizing quotes opened depth with
  | nil =>
      simp only [closesEven, Bool.and_eq_true, beq_iff_eq] at h
      exact h.1
  | cons c cs ih =>
      rw [closesEven] at h
      split at h
      next => exact ih h _
      next => cases h

theorem Leaves.value {cs : List Char} (h : closesEven .outside 0 cs = true) :
    Leaves (leftOpen cs) cs :=
  fun depth => ⟨Scan.quotes_of_closesEven h depth, Scan.behind_add_le cs .outside 0 depth⟩

end Nesting

open Nesting

/-- How many brackets the value of a parameter leaves open. -/
def RawParameter.leftOpen (p : RawParameter) : Nat := Nesting.leftOpen p.value.value.toList

def RawParameter.leftOpenAll : List RawParameter → Nat
  | [] => 0
  | p :: rest => p.leftOpen + RawParameter.leftOpenAll rest

def SelectStep.leftOpenAll (steps : List SelectStep) : Nat :=
  RawParameter.leftOpenAll (steps.flatMap SelectStep.parameters)

private theorem RawParameter.leftOpenAll_append (front rest : List RawParameter) :
    leftOpenAll (front ++ rest) = leftOpenAll front + leftOpenAll rest := by
  induction front with
  | nil => simp [leftOpenAll]
  | cons p front ih => simp [leftOpenAll, ih, Nat.add_assoc]

theorem SelectStep.leftOpenAll_cons (step : SelectStep) (rest : List SelectStep) :
    leftOpenAll (step :: rest) = RawParameter.leftOpenAll step.parameters + leftOpenAll rest := by
  rw [leftOpenAll, List.flatMap_cons, RawParameter.leftOpenAll_append, leftOpenAll]

theorem SelectStep.leftOpenAll_append (front rest : List SelectStep) :
    leftOpenAll (front ++ rest) = leftOpenAll front + leftOpenAll rest := by
  rw [leftOpenAll, List.flatMap_append, RawParameter.leftOpenAll_append, leftOpenAll, leftOpenAll]

private theorem RawParameter.leftOpenAll_eq_zero {parameters : List RawParameter}
    (h : ∀ p ∈ parameters, p.leftOpen = 0) : leftOpenAll parameters = 0 := by
  induction parameters with
  | nil => rfl
  | cons p rest ih =>
      rw [List.forall_mem_cons] at h
      rw [leftOpenAll, h.1, ih h.2]

theorem SelectStep.leftOpenAll_eq_zero {steps : List SelectStep}
    (h : ∀ step ∈ steps, ∀ p ∈ step.parameters, p.leftOpen = 0) : leftOpenAll steps = 0 := by
  apply RawParameter.leftOpenAll_eq_zero
  intro p hp
  obtain ⟨step, hstep, hmem⟩ := List.mem_flatMap.mp hp
  exact h step hstep p hmem

theorem RawParameter.leaves_chars {p : RawParameter} (h : p.WellFormed) :
    Leaves p.leftOpen p.chars := by
  have hname : Leaves 0 p.name.value.toList := .of_all (all_isPlain (by decide) h.name.2)
  have hequals : Leaves 0 ['='] := .plain (by decide)
  have hinner := hname.append (hequals.append (Leaves.value h.even))
  rw [Nat.zero_add, Nat.zero_add] at hinner
  have hchars : p.chars =
      '(' :: ((p.name.value.toList ++ (['='] ++ p.value.value.toList)) ++ [')']) := by
    simp [RawParameter.chars]
  rw [hchars]
  exact hinner.enclosed rfl rfl

theorem RawParameter.leaves_flatMap_chars {parameters : List RawParameter}
    (h : ∀ p ∈ parameters, p.WellFormed) :
    Leaves (RawParameter.leftOpenAll parameters) (parameters.flatMap RawParameter.chars) := by
  induction parameters with
  | nil => exact .nil
  | cons p rest ih =>
      rw [List.forall_mem_cons] at h
      exact (RawParameter.leaves_chars h.1).append (ih h.2)

private theorem SelectStep.leaves_joint (step : SelectStep) : Leaves 0 step.joint := by
  cases step with
  | named name parameters => exact .plain (by decide)
  | group members parameters span => exact .nil

mutual
theorem SelectItem.leaves_chars : ∀ (braces : Bool) (item : SelectItem), item.WellFormed braces →
    Leaves (SelectStep.leftOpenAll item.allSteps) item.chars
  | braces, .chain (step :: rest) _, h => by
      have hstep := SelectStep.leaves_chars braces step h.1
      have hrest := SelectStep.leaves_laterChars rest h.2
      rw [SelectItem.allSteps, SelectStep.allStepsList, SelectStep.leftOpenAll_append]
      exact hstep.append hrest

/-- Groups close their brackets, so items leave open what the values of their parameters do at most. -/
theorem SelectItem.leaves_listChars : ∀ (braces : Bool) (items : List SelectItem),
    SelectItem.WellFormedList braces items →
      Leaves (SelectStep.leftOpenAll (SelectItem.allStepsList items)) (SelectItem.listChars items)
  | _, [], _ => .nil
  | braces, item :: rest, h => by
      have hitem := SelectItem.leaves_chars braces item h.1
      have hrest := SelectItem.leaves_moreChars braces rest h.2
      rw [SelectItem.allStepsList, SelectStep.leftOpenAll_append]
      exact hitem.append hrest

theorem SelectItem.leaves_moreChars : ∀ (braces : Bool) (items : List SelectItem),
    SelectItem.WellFormedList braces items →
      Leaves (SelectStep.leftOpenAll (SelectItem.allStepsList items)) (SelectItem.moreChars items)
  | _, [], _ => .nil
  | braces, item :: rest, h => by
      have hcomma : Leaves 0 [','] := .plain (by decide)
      have hitem := SelectItem.leaves_chars braces item h.1
      have hrest := SelectItem.leaves_moreChars braces rest h.2
      rw [SelectItem.allStepsList, SelectStep.leftOpenAll_append, ← Nat.zero_add (_ + _)]
      exact hcomma.append (hitem.append hrest)

theorem SelectStep.leaves_chars : ∀ (braces : Bool) (step : SelectStep), step.WellFormed braces →
    Leaves (SelectStep.leftOpenAll step.allSteps) step.chars
  | braces, .named name parameters, h => by
      have hname : Leaves 0 name.value.toList :=
        .of_all (all_isPlain (by cases braces <;> decide) h.1.2)
      have hparameters := RawParameter.leaves_flatMap_chars h.2
      rw [SelectStep.allSteps, SelectStep.leftOpenAll_cons, Nat.add_comm]
      exact hname.append hparameters
  | braces, .group members parameters _, h => by
      have hmembers := SelectItem.leaves_listChars braces members h.1
      have hbrackets : Leaves _ ('[' :: (SelectItem.listChars members ++ [']'])) :=
        hmembers.enclosed rfl rfl
      have hparameters := RawParameter.leaves_flatMap_chars h.2
      have hall := hbrackets.append hparameters
      rw [List.cons_append, List.append_assoc] at hall
      rw [SelectStep.allSteps, SelectStep.leftOpenAll_cons, Nat.add_comm]
      exact hall

theorem SelectStep.leaves_laterChars : ∀ steps : List SelectStep, SelectStep.WellFormedLater steps →
    Leaves (SelectStep.leftOpenAll (SelectStep.allStepsList steps)) (SelectStep.laterChars steps)
  | [], _ => .nil
  | step :: rest, h => by
      have hstep := SelectStep.leaves_chars false step h.1
      have hrest := SelectStep.leaves_laterChars rest h.2
      rw [SelectStep.allStepsList, SelectStep.leftOpenAll_append, ← Nat.zero_add (_ + _)]
      exact step.leaves_joint.append (hstep.append hrest)
end

def RawParameter.shift (n : Nat) (p : RawParameter) : RawParameter :=
  ⟨p.name.shift n, p.value.shift n⟩

mutual
/-- The item of a text that stands `n` bytes further on. -/
def SelectItem.shift (n : Nat) : SelectItem → SelectItem
  | .chain steps span => .chain (SelectStep.shiftList n steps) (span.shift n)

def SelectItem.shiftList (n : Nat) : List SelectItem → List SelectItem
  | [] => []
  | item :: rest => item.shift n :: SelectItem.shiftList n rest

def SelectStep.shift (n : Nat) : SelectStep → SelectStep
  | .named name parameters => .named (name.shift n) (parameters.map (RawParameter.shift n))
  | .group members parameters span =>
      .group (SelectItem.shiftList n members) (parameters.map (RawParameter.shift n)) (span.shift n)

def SelectStep.shiftList (n : Nat) : List SelectStep → List SelectStep
  | [] => []
  | step :: rest => step.shift n :: SelectStep.shiftList n rest
end

private theorem RawParameter.placeAll_add (parameters : List RawParameter) (offset n : Nat) :
    RawParameter.placeAll parameters (offset + n) =
      (RawParameter.placeAll parameters offset).map (RawParameter.shift n) := by
  induction parameters generalizing offset with
  | nil => rfl
  | cons p rest ih =>
      simp only [RawParameter.placeAll, List.map_cons, Nat.add_right_comm offset n, ih,
        RawParameter.place, RawParameter.shift, Spanned.shift, Span.shift]
      simp only [Nat.add_right_comm _ n]

mutual
theorem SelectItem.place_add : ∀ (item : SelectItem) (offset n : Nat),
    item.place (offset + n) = (item.place offset).shift n
  | .chain steps _, offset, n => by
      simp only [SelectItem.place, SelectItem.shift, Span.shift, SelectStep.placeList_add steps,
        Nat.add_right_comm offset n]

theorem SelectItem.placeList_add : ∀ (items : List SelectItem) (offset n : Nat),
    SelectItem.placeList items (offset + n) =
      SelectItem.shiftList n (SelectItem.placeList items offset)
  | [], _, _ => rfl
  | item :: rest, offset, n => by
      simp only [SelectItem.placeList, SelectItem.shiftList, item.place_add,
        Nat.add_right_comm offset n, SelectItem.placeMore_add rest]

theorem SelectItem.placeMore_add : ∀ (items : List SelectItem) (offset n : Nat),
    SelectItem.placeMore items (offset + n) =
      SelectItem.shiftList n (SelectItem.placeMore items offset)
  | [], _, _ => rfl
  | item :: rest, offset, n => by
      simp only [SelectItem.placeMore, SelectItem.shiftList, Nat.add_right_comm offset n,
        item.place_add, SelectItem.placeMore_add rest]

theorem SelectStep.place_add : ∀ (step : SelectStep) (offset n : Nat),
    step.place (offset + n) = (step.place offset).shift n
  | .named name parameters, offset, n => by
      simp only [SelectStep.place, SelectStep.shift, Spanned.shift, Span.shift,
        Nat.add_right_comm offset n, RawParameter.placeAll_add]
  | .group members parameters _, offset, n => by
      simp only [SelectStep.place, SelectStep.shift, Span.shift, Nat.add_right_comm offset n,
        RawParameter.placeAll_add, SelectItem.placeList_add members]

theorem SelectStep.placeList_add : ∀ (steps : List SelectStep) (offset n : Nat),
    SelectStep.placeList steps (offset + n) =
      SelectStep.shiftList n (SelectStep.placeList steps offset)
  | [], _, _ => rfl
  | step :: rest, offset, n => by
      simp only [SelectStep.placeList, SelectStep.shiftList, step.place_add,
        Nat.add_right_comm offset n, SelectStep.placeLater_add rest]

theorem SelectStep.placeLater_add : ∀ (steps : List SelectStep) (offset n : Nat),
    SelectStep.placeLater steps (offset + n) =
      SelectStep.shiftList n (SelectStep.placeLater steps offset)
  | [], _, _ => rfl
  | step :: rest, offset, n => by
      simp only [SelectStep.placeLater, SelectStep.shiftList, Nat.add_right_comm offset n,
        step.place_add, SelectStep.placeLater_add rest]
end

namespace SelectItem

private theorem moreChars_append (front rest : List SelectItem) :
    moreChars (front ++ rest) = moreChars front ++ moreChars rest := by
  induction front with
  | nil => rfl
  | cons item front ih => simp [moreChars, ih]

private theorem moreChars_eq {items : List SelectItem} (h : items ≠ []) :
    moreChars items = ',' :: listChars items := by
  cases items with
  | nil => exact absurd rfl h
  | cons item rest => rfl

theorem listChars_append {front rest : List SelectItem} (hfront : front ≠ []) (hrest : rest ≠ []) :
    listChars (front ++ rest) = listChars front ++ ',' :: listChars rest := by
  obtain ⟨item, more, rfl⟩ := List.exists_cons_of_ne_nil hfront
  rw [← moreChars_eq hrest, List.cons_append, listChars, listChars, moreChars_append,
    List.append_assoc]

private theorem placeMore_append (front rest : List SelectItem) (offset : Nat) :
    placeMore (front ++ rest) offset =
      placeMore front offset ++ placeMore rest (offset + byteLength (moreChars front)) := by
  induction front generalizing offset with
  | nil => rfl
  | cons item front ih =>
      simp only [List.cons_append, placeMore, moreChars, ih, byteLength_append, byteLength_cons,
        Nat.add_assoc]

private theorem placeMore_eq {items : List SelectItem} (h : items ≠ []) (offset : Nat) :
    placeMore items offset = placeList items (offset + 1) := by
  cases items with
  | nil => exact absurd rfl h
  | cons item rest =>
      simp only [placeMore, placeList, byteLength_cons, byteLength_nil, Nat.add_assoc]
      rfl

theorem placeList_append {front rest : List SelectItem} (hfront : front ≠ []) (hrest : rest ≠ [])
    (offset : Nat) :
    placeList (front ++ rest) offset = placeList front offset ++
      shiftList (byteLength (listChars front) + 1) (placeList rest offset) := by
  obtain ⟨item, more, rfl⟩ := List.exists_cons_of_ne_nil hfront
  rw [List.cons_append, placeList, placeList, placeMore_append, placeMore_eq hrest, ← placeList_add,
    listChars, byteLength_append, List.cons_append]
  simp only [Nat.add_assoc]

theorem allStepsList_append (front rest : List SelectItem) :
    allStepsList (front ++ rest) = allStepsList front ++ allStepsList rest := by
  induction front with
  | nil => rfl
  | cons item front ih => simp [allStepsList, ih]

theorem wellFormedList_append {braces : Bool} {front rest : List SelectItem} :
    WellFormedList braces (front ++ rest) ↔
      WellFormedList braces front ∧ WellFormedList braces rest := by
  induction front with
  | nil => simp [WellFormedList]
  | cons item front ih => simp [WellFormedList, ih, and_assoc]

theorem Writable.append {braces : Bool} {front rest : List SelectItem}
    (hfront : Writable braces front) (hrest : Writable braces rest) :
    Writable braces (front ++ rest) := by
  refine ⟨by simp [hfront.nonempty],
    wellFormedList_append.mpr ⟨hfront.wellFormed, hrest.wellFormed⟩, ?_⟩
  unfold Distinct
  rw [allStepsList_append, List.forall_mem_append]
  exact ⟨hfront.distinct, hrest.distinct⟩

theorem leaves_of_parse {settings : SelectSettings} {source : String} {items : List SelectItem}
    (h : parse source settings = .ok items) :
    Leaves (SelectStep.leftOpenAll (allStepsList items)) source.toList := by
  obtain ⟨hwritable, htext, -, -⟩ := parse_eq_ok_iff.mp h
  rw [← htext, render, String.toList_ofList]
  exact leaves_listChars _ items hwritable.wellFormed

/-- The check of two selects with a comma between them carries the brackets that the first leaves open
into the second, and nothing else. -/
theorem check_comma {settings : SelectSettings} {source : String} {items : List SelectItem}
    (h : parse source settings = .ok items) (next : String) (limit : Nat) :
    Nesting.check (source ++ "," ++ next) limit = .ok () ↔
      Nesting.check source limit = .ok () ∧
        firstTooDeep limit .outside (leftOpen source.toList) 0 next.toList = none := by
  have hchars : (source ++ "," ++ next).toList = source.toList ++ ',' :: next.toList := by simp
  have hquotes := (leaves_of_parse h 0).1
  have happend := firstTooDeep_append limit ⟨.outside, 0⟩ 0 source.toList (',' :: next.toList)
  rw [hquotes, firstTooDeep_plain (by decide)] at happend
  rw [check_eq_ok_iff, check_eq_ok_iff, hchars, happend, Option.or_eq_none_iff]
  refine and_congr_right fun _ => ⟨fun hrest => ?_, fun hrest => ?_⟩
  · exact firstTooDeep_mono hrest (Nat.le_refl _)
  · exact firstTooDeep_mono hrest (Nat.le_refl _)

/-- Two selects that are accepted on their own are read as the items of both when a comma stands
between them, unless the second nests too deep on top of the brackets that the first leaves open. If
no value of the first leaves one open, that does not happen. -/
theorem parse_comma {settings : SelectSettings} {first second : String}
    {items more : List SelectItem} (hfirst : parse first settings = .ok items)
    (hsecond : parse second settings = .ok more) :
    (∀ all, parse (first ++ "," ++ second) settings = .ok all ↔
      all = items ++ shiftList (first.utf8ByteSize + 1) more ∧
        firstTooDeep settings.maxDepth .outside (leftOpen first.toList) 0 second.toList = none) ∧
    ((∀ step ∈ allStepsList items, ∀ p ∈ step.parameters, p.leftOpen = 0) →
      parse (first ++ "," ++ second) settings =
        .ok (items ++ shiftList (first.utf8ByteSize + 1) more)) := by
  obtain ⟨hwritable, htext, hplaced, hcheck⟩ := parse_eq_ok_iff.mp hfirst
  obtain ⟨hwritable', htext', hplaced', hcheck'⟩ := parse_eq_ok_iff.mp hsecond
  have hjoined : render (items ++ more) = first ++ "," ++ second := by
    apply String.toList_injective
    simp [← htext, ← htext', render, listChars_append hwritable.nonempty hwritable'.nonempty]
  have hlength : byteLength (listChars items) = first.utf8ByteSize := by
    rw [← htext, render, ← byteLength_toList, String.toList_ofList]
  have hread : Nesting.check (first ++ "," ++ second) settings.maxDepth = .ok () →
      parse (first ++ "," ++ second) settings =
        .ok (items ++ shiftList (first.utf8ByteSize + 1) more) := by
    intro h
    rw [← hjoined] at h ⊢
    rw [parse_render (hwritable.append hwritable') h,
      placeList_append hwritable.nonempty hwritable'.nonempty, hplaced, hplaced', hlength]
  have hscan := check_comma hfirst second settings.maxDepth
  refine ⟨fun all => ⟨fun h => ?_, fun h => ?_⟩, fun h => ?_⟩
  · have hjoint := (parse_eq_ok_iff.mp h).2.2.2
    rw [hread hjoint, Except.ok.injEq] at h
    exact ⟨h.symm, (hscan.mp hjoint).2⟩
  · rw [h.1]
    exact hread (hscan.mpr ⟨hcheck, h.2⟩)
  · have hleft := (leaves_of_parse hfirst 0).2
    rw [SelectStep.leftOpenAll_eq_zero h] at hleft
    apply hread
    apply hscan.mpr
    exact ⟨hcheck, firstTooDeep_mono (check_eq_ok_iff.mp hcheck') hleft⟩

/-- A value that opens a bracket and closes it, with another one inside a string. -/
private def closedSource : String := "a(x=[\"é[\"])[b]"

theorem parse_comma_closed :
    ∃ items more, parse closedSource ⟨false, .initial, 2⟩ = .ok items ∧
      parse "c(y=[)[d]" ⟨false, .initial, 2⟩ = .ok more ∧
      (∀ step ∈ allStepsList items, ∀ p ∈ step.parameters, p.leftOpen = 0) ∧
      parse (closedSource ++ "," ++ "c(y=[)[d]") ⟨false, .initial, 2⟩ =
        .ok (items ++ shiftList 16 more) := by
  have hok : (parse closedSource ⟨false, .initial, 2⟩).toOption.map (fun items =>
      (allStepsList items).all fun step => step.parameters.all fun p => p.leftOpen == 0) =
        some true := by decide +kernel
  have hok' : (parse "c(y=[)[d]" ⟨false, .initial, 2⟩).isOk = true := by decide +kernel
  cases hfirst : parse closedSource ⟨false, .initial, 2⟩ with
  | error error => simp [hfirst, Except.toOption] at hok
  | ok items =>
      cases hsecond : parse "c(y=[)[d]" ⟨false, .initial, 2⟩ with
      | error error => simp [hsecond, Except.isOk, Except.toBool] at hok'
      | ok more =>
          have hclosed : ∀ step ∈ allStepsList items, ∀ p ∈ step.parameters, p.leftOpen = 0 := by
            simpa [hfirst, Except.toOption] using hok
          exact ⟨items, more, rfl, rfl, hclosed, (parse_comma hfirst hsecond).2 hclosed⟩

/-- The value of `x` opens a bracket for the check and none for the grammar. Each select is accepted,
and both together are not. -/
theorem parse_comma_refused :
    (∃ items, parse "a(x=[)" ⟨false, .initial, 2⟩ = .ok items) ∧
      Nesting.check ("a(x=[)" ++ "," ++ "a(x=[)") 2 = .error ⟨.nestedTooDeep 2, ⟨11, 12⟩⟩ ∧
      ∀ all, parse ("a(x=[)" ++ "," ++ "a(x=[)") ⟨false, .initial, 2⟩ ≠ .ok all := by
  have hok : (parse "a(x=[)" ⟨false, .initial, 2⟩).isOk = true := by decide +kernel
  have hcheck : Nesting.check ("a(x=[)" ++ "," ++ "a(x=[)") 2 =
      .error ⟨.nestedTooDeep 2, ⟨11, 12⟩⟩ := by decide +kernel
  refine ⟨?_, hcheck, fun all hall => ?_⟩
  · cases hparse : parse "a(x=[)" ⟨false, .initial, 2⟩ with
    | error error => simp [hparse, Except.isOk, Except.toBool] at hok
    | ok items => exact ⟨items, rfl⟩
  · have hpassed := (parse_eq_ok_iff.mp hall).2.2.2
    rw [hcheck] at hpassed
    cases hpassed

end SelectItem

end RequestQuery
