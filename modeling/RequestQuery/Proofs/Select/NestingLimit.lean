import RequestQuery.Proofs.Reading.Agreement
import RequestQuery.Proofs.Select.Beginnings
import RequestQuery.Proofs.Select.Lossless

/-!
# The nesting limit of selects

The check of nesting counts every bracket outside strings, but the grammar takes the value of a parameter
as it is. A closing bracket inside a value lowers the count without closing a group, so the limit does
not bound how deep groups nest. It does as long as no value that is read inside a group closes more
brackets than it opens: then no beginning of the text has more groups open, and the grammar stands
behind beginnings of the text only, whether it comes to a select or to an error.
-/

namespace RequestQuery

open RequestQuery.Parser

namespace Parser

/-- Items of which `deeper` reads what `levels` levels do not hold. -/
def itemListOver (deeper : Bool → Parser (List SelectItem)) :
    Nat → Bool → Parser (List SelectItem)
  | 0 => deeper
  | levels + 1 => itemListLevel (itemListOver deeper levels)

def selectTextOver (braces : Bool) (deeper : Bool → Parser (List SelectItem)) (levels : Nat) :
    Parser (List SelectItem) := do
  let items ← itemListOver deeper levels braces
  labelled "`,` or end of input" atEnd
  pure items

theorem itemList_add (fuel levels : Nat) :
    itemList (fuel + levels) = itemListOver (itemList fuel) levels := by
  induction levels with
  | zero => rfl
  | succ levels ih =>
      rw [itemListOver, ← ih]
      rfl

theorem selectText_add (braces : Bool) (fuel levels : Nat) :
    selectText braces (fuel + levels) = selectTextOver braces (itemList fuel) levels := by
  unfold selectText selectTextOver
  rw [itemList_add]

/-- What stands before a cursor is a beginning of the text. -/
def Stands (braces : Bool) (text : List Char) (place : SelectPlace) (inner : Bool)
    (outer : List Bool) (cursor : Cursor) : Prop :=
  ∃ front, text = front ++ cursor.rest ∧ Beginning braces place inner outer front

theorem Stands.passes {braces : Bool} {text : List Char} {place place' : SelectPlace}
    {inner inner' : Bool} {outer outer' : List Bool} {cursor next : Cursor} {cs : List Char}
    (h : Stands braces text place inner outer cursor) (hpasses : cursor.Passes cs next)
    (hcs : ∀ front, Beginning braces place inner outer front →
      Beginning braces place' inner' outer' (front ++ cs)) :
    Stands braces text place' inner' outer' next := by
  obtain ⟨front, htext, hfront⟩ := h
  rw [hpasses.rest, ← List.append_assoc] at htext
  exact ⟨front ++ cs, htext, hcs front hfront⟩

/-- No beginning of the text has more groups open than the limit. -/
def AtMost (braces : Bool) (text : List Char) (limit : Nat) : Prop :=
  ∀ (place : SelectPlace) (inner : Bool) (outer : List Bool) (front rest : List Char),
    text = front ++ rest → Beginning braces place inner outer front → outer.length ≤ limit

section Levels

variable {braces : Bool} {text : List Char} {limit : Nat} {place : SelectPlace} {flag : Bool}
  {outer : List Bool} {before : Cursor → Prop} {inner inner' : Bool → Parser (List SelectItem)}

private theorem agree_parameter :
    Agree (Stands braces text .step flag outer) (Stands braces text .step flag outer) parameter
      parameter := by
  apply agree_self (fun cs => ∃ p : RawParameter, p.WellFormed ∧ cs = p.chars)
  · intro cursor p next h
    have hread := parameter_eq_done h
    exact ⟨p.chars, ⟨p, hread.well, rfl⟩, hread.passes⟩
  · rintro cursor next cs ⟨p, hwell, rfl⟩ hpasses hcursor
    exact hcursor.passes hpasses fun front hfront => hfront.parameter hwell

private theorem agree_namedStep (named : Bool)
    (hnamed : ∀ cursor next name, before cursor → IsRun (nameClass named) name →
      cursor.Passes name next → Stands braces text .step flag outer next) :
    Agree before (Stands braces text .step flag outer) (namedStep named) (namedStep named) := by
  have hname : Agree before (Stands braces text .step flag outer) (attributeName named)
      (attributeName named) := by
    apply agree_self (IsRun (nameClass named))
    · intro cursor value next h
      obtain ⟨hrun, hpasses, -⟩ := attributeName_eq_done h
      exact ⟨value.value.toList, hrun, hpasses⟩
    · intro cursor next cs hrun hpasses hbefore
      exact hnamed cursor next cs hbefore hrun hpasses
  apply hname.bind
  intro name
  apply agree_parameter.many.bind
  intro parameters
  exact agree_pure _

/-- At the limit no group is opened, so there what stands inside groups does not matter. -/
private theorem agree_groupStep (hlimit : AtMost braces text limit) {named : Bool}
    (hopens : ∀ cursor next, before cursor → cursor.Passes ['['] next →
      Stands braces text .opened named (flag :: outer) next)
    {p q : Parser (List SelectItem)}
    (h : outer.length < limit → Agree (Stands braces text .opened named (flag :: outer))
      (Stands braces text .step named (flag :: outer)) p q) :
    Agree before (Stands braces text .step flag outer) (groupStep p) (groupStep q) := by
  let Inside : Cursor → Prop := fun cursor => ∃ place, place ≠ .item ∧
    Stands braces text place named (flag :: outer) cursor
  have hopener : Agree before (Stands braces text .opened named (flag :: outer)) (char '[')
      (char '[') := by
    apply agree_self (fun cs => cs = ['['])
    · intro cursor value next hdone
      exact ⟨['['], rfl, char_eq_done hdone⟩
    · rintro cursor next cs rfl hpasses hbefore
      exact hopens cursor next hbefore hpasses
  have hcloser : Agree Inside (Stands braces text .step flag outer) (char ']') (char ']') := by
    apply agree_self (fun cs => cs = [']'])
    · intro cursor value next hdone
      exact ⟨[']'], rfl, char_eq_done hdone⟩
    · rintro cursor next cs rfl hpasses ⟨place, hplace, hcursor⟩
      exact hcursor.passes hpasses fun front hfront => hfront.close hplace
  have hmembers : Agree before (Stands braces text .step flag outer) (groupMembers p)
      (groupMembers q) := by
    apply hopener.bind
    intro _ cursor hcursor
    obtain ⟨front, htext, hfront⟩ := hcursor
    have hinner := h (hlimit _ _ _ front _ htext hfront)
    have hinside : Agree (Stands braces text .opened named (flag :: outer))
        (Stands braces text .step flag outer)
        (do let members ← optional p; labelled "`]`" (char ']'); pure (members.getD []))
        (do let members ← optional q; labelled "`]`" (char ']'); pure (members.getD [])) := by
      have hitems : Agree (Stands braces text .opened named (flag :: outer)) Inside p q :=
        hinner.mono fun _ hnext => ⟨.step, by decide, hnext⟩
      apply (hitems.optional fun _ hnext => ⟨.opened, by decide, hnext⟩).bind
      intro members
      apply (hcloser.labelled _).bind
      intro _
      exact agree_pure _
    exact hinside.commit cursor ⟨front, htext, hfront⟩
  apply hmembers.spanned.bind
  intro members
  apply agree_parameter.many.bind
  intro parameters
  exact agree_pure _

private theorem agree_item (hlimit : AtMost braces text limit) (hplace : place ≠ .step)
    (h : outer.length < limit → ∀ named, Agree (Stands braces text .opened named (flag :: outer))
      (Stands braces text .step named (flag :: outer)) (inner named) (inner' named)) :
    Agree (Stands braces text place flag outer) (Stands braces text .step flag outer)
      (item inner flag) (item inner' flag) := by
  have hfirst : Agree (Stands braces text place flag outer) (Stands braces text .step flag outer)
      (either (namedStep flag) (groupStep (inner flag)))
      (either (namedStep flag) (groupStep (inner' flag))) := by
    apply Agree.either
    · apply agree_namedStep
      intro cursor next name hcursor hrun hpasses
      exact hcursor.passes hpasses fun front hfront => hfront.named hplace hrun
    · apply agree_groupStep hlimit _ fun hlt => h hlt flag
      intro cursor next hcursor hpasses
      exact hcursor.passes hpasses fun front hfront => hfront.group hplace
  have hpoint : Agree (Stands braces text .step flag outer)
      (fun next => ∃ cursor, Stands braces text .step flag outer cursor ∧ cursor.Passes ['.'] next)
      (char '.') (char '.') := by
    intro cursor hcursor
    exact ⟨rfl, fun value next hdone => ⟨cursor, hcursor, char_eq_done hdone⟩⟩
  have hnext : Agree (Stands braces text .step flag outer) (Stands braces text .step flag outer)
      (nextStep inner) (nextStep inner') := by
    apply Agree.either
    · apply hpoint.bind
      intro _
      apply (agree_namedStep false _).commit
      rintro cursor next name ⟨before, hbefore, hpoint⟩ hrun hpasses
      exact hbefore.passes (hpoint.trans hpasses) fun front hfront => hfront.point hrun
    · apply agree_groupStep hlimit _ fun hlt => h hlt false
      intro cursor next hcursor hpasses
      exact hcursor.passes hpasses fun front hfront => hfront.nextGroup
  have hsteps : Agree (Stands braces text place flag outer) (Stands braces text .step flag outer)
      (chainSteps inner flag) (chainSteps inner' flag) := by
    apply hfirst.bind
    intro first
    apply hnext.many.bind
    intro more
    exact agree_pure _
  apply hsteps.spanned.bind
  intro steps
  exact agree_pure _

private theorem agree_itemListLevel (hlimit : AtMost braces text limit) (hplace : place ≠ .step)
    (h : outer.length < limit → ∀ named, Agree (Stands braces text .opened named (flag :: outer))
      (Stands braces text .step named (flag :: outer)) (inner named) (inner' named)) :
    Agree (Stands braces text place flag outer) (Stands braces text .step flag outer)
      (itemListLevel inner flag) (itemListLevel inner' flag) := by
  have hcomma : Agree (Stands braces text .step flag outer) (Stands braces text .item flag outer)
      (char ',') (char ',') := by
    intro cursor hcursor
    refine ⟨rfl, fun value next hdone => ?_⟩
    exact hcursor.passes (char_eq_done hdone) fun front hfront => hfront.comma
  apply (agree_item hlimit hplace h).bind
  intro first
  apply Agree.bind
  · apply Agree.many
    apply hcomma.bind
    intro _
    exact (agree_item hlimit (by decide) h).commit
  · intro more
    exact agree_pure _

theorem agree_itemListOver (hlimit : AtMost braces text limit)
    (deeper deeper' : Bool → Parser (List SelectItem)) (levels : Nat) :
    ∀ (place : SelectPlace) (flag : Bool) (outer : List Bool), place ≠ .step →
      outer.length + levels = limit →
        Agree (Stands braces text place flag outer) (Stands braces text .step flag outer)
          (itemListOver deeper (levels + 1) flag) (itemListOver deeper' (levels + 1) flag) := by
  induction levels with
  | zero =>
      intro place flag outer hplace hlength
      apply agree_itemListLevel hlimit hplace
      intro hlt
      omega
  | succ levels ih =>
      intro place flag outer hplace hlength
      apply agree_itemListLevel hlimit hplace
      intro _ named
      apply ih .opened named (flag :: outer) (by decide)
      rw [List.length_cons]
      omega

theorem selectTextOver_eq {source : String} (hlimit : AtMost braces source.toList limit)
    (deeper deeper' : Bool → Parser (List SelectItem)) :
    selectTextOver braces deeper (limit + 1) (.start source) =
      selectTextOver braces deeper' (limit + 1) (.start source) := by
  have hitems := agree_itemListOver hlimit deeper deeper' limit .item braces [] (by decide)
    (Nat.zero_add limit)
  have hagree : Agree (Stands braces source.toList .item braces []) (fun _ => True)
      (selectTextOver braces deeper (limit + 1)) (selectTextOver braces deeper' (limit + 1)) :=
    hitems.bind fun _ _ _ => ⟨rfl, fun _ _ _ => trivial⟩
  exact (hagree (.start source) ⟨[], rfl, .start⟩).1

theorem selectText_eq {source : String} (hlimit : AtMost braces source.toList limit) {fuel : Nat}
    (hfuel : limit + 1 ≤ fuel) (deeper : Bool → Parser (List SelectItem)) :
    selectText braces fuel (.start source) =
      selectTextOver braces deeper (limit + 1) (.start source) := by
  obtain ⟨more, rfl⟩ := Nat.exists_eq_add_of_le' hfuel
  rw [selectText_add]
  exact selectTextOver_eq hlimit _ _

end Levels

/-- Stop whatever there is to read. -/
def never {α : Type} : Parser α := fun cursor => .failed (.bare cursor)

private theorem not_groupStep_never {cursor next : Cursor} {step : SelectStep} :
    ¬groupStep never cursor = .done step next := by
  intro h
  obtain ⟨brackets, c₁, hbrackets, -⟩ := bind_eq_done.mp h
  obtain ⟨_, c₂, -, hinside⟩ := bind_eq_done.mp (spanned_eq_done hbrackets).1
  obtain ⟨members, c₃, hmembers, -⟩ := bind_eq_done.mp (commit_eq_done.mp hinside)
  cases hmembers

private theorem depth_groupStep {p : Parser (List SelectItem)} {n : Nat}
    (hp : ∀ cursor items next, p cursor = .done items next → SelectItem.depthList items ≤ n)
    {cursor next : Cursor} {step : SelectStep} (h : groupStep p cursor = .done step next) :
    step.depth ≤ n + 1 := by
  obtain ⟨brackets, c₁, hbrackets, hrest⟩ := bind_eq_done.mp h
  obtain ⟨parameters, c₂, -, hpure⟩ := bind_eq_done.mp hrest
  obtain ⟨rfl, -⟩ := pure_eq_done.mp hpure
  obtain ⟨_, c₃, -, hinside⟩ := bind_eq_done.mp (spanned_eq_done hbrackets).1
  obtain ⟨found, c₄, hfound, hcloser⟩ := bind_eq_done.mp (commit_eq_done.mp hinside)
  obtain ⟨_, c₅, -, hmembers⟩ := bind_eq_done.mp hcloser
  obtain ⟨hvalue, -⟩ := pure_eq_done.mp hmembers
  rw [SelectStep.depth, ← hvalue]
  rcases optional_eq_done hfound with ⟨items, rfl, hitems⟩ | ⟨rfl, -⟩
  · exact Nat.succ_le_succ (hp _ _ _ hitems)
  · exact Nat.succ_le_succ (Nat.zero_le n)

private theorem depth_namedStep {braces : Bool} {cursor next : Cursor} {step : SelectStep}
    (h : namedStep braces cursor = .done step next) : step.depth = 0 := by
  obtain ⟨name, c₁, -, hrest⟩ := bind_eq_done.mp h
  obtain ⟨parameters, c₂, -, hpure⟩ := bind_eq_done.mp hrest
  obtain ⟨rfl, -⟩ := pure_eq_done.mp hpure
  rfl

section Depth

variable {inner : Bool → Parser (List SelectItem)} {n : Nat}

private theorem depth_item
    (hgroup : ∀ braces cursor step next, groupStep (inner braces) cursor = .done step next →
      step.depth ≤ n)
    {braces : Bool} {cursor next : Cursor} {read : SelectItem}
    (h : item inner braces cursor = .done read next) : read.depth ≤ n := by
  have hnamed : ∀ braces cursor step next, namedStep braces cursor = .done step next →
      step.depth ≤ n := by
    intro braces cursor step next hstep
    rw [depth_namedStep hstep]
    exact Nat.zero_le n
  have hmore : ∀ cursor steps next, Repeated (nextStep inner) cursor steps next →
      SelectStep.depthList steps ≤ n := by
    intro cursor steps next hsteps
    induction hsteps with
    | stop cursor => exact Nat.zero_le n
    | step hfirst _ ih =>
        refine Nat.max_le.mpr ⟨?_, ih⟩
        rcases either_eq_done hfirst with hpoint | hopener
        · obtain ⟨_, c₁, -, hstep⟩ := bind_eq_done.mp hpoint
          exact hnamed _ _ _ _ (commit_eq_done.mp hstep)
        · exact hgroup _ _ _ _ hopener
  obtain ⟨steps, c₁, hsteps, hpure⟩ := bind_eq_done.mp h
  obtain ⟨rfl, -⟩ := pure_eq_done.mp hpure
  obtain ⟨first, c₂, hfirst, hrest⟩ := bind_eq_done.mp (spanned_eq_done hsteps).1
  obtain ⟨more, c₃, hlater, hlist⟩ := bind_eq_done.mp hrest
  obtain ⟨hvalue, -⟩ := pure_eq_done.mp hlist
  rw [SelectItem.depth, ← hvalue]
  refine Nat.max_le.mpr ⟨?_, hmore _ _ _ (many_eq_done hlater)⟩
  rcases either_eq_done hfirst with hstep | hstep
  · exact hnamed _ _ _ _ hstep
  · exact hgroup _ _ _ _ hstep

private theorem depth_itemListLevel
    (hgroup : ∀ braces cursor step next, groupStep (inner braces) cursor = .done step next →
      step.depth ≤ n)
    {braces : Bool} {cursor next : Cursor} {items : List SelectItem}
    (h : itemListLevel inner braces cursor = .done items next) :
    SelectItem.depthList items ≤ n := by
  have hmore : ∀ cursor items next,
      Repeated (do char ','; commit (item inner braces)) cursor items next →
        SelectItem.depthList items ≤ n := by
    intro cursor items next hitems
    induction hitems with
    | stop cursor => exact Nat.zero_le n
    | step hfirst _ ih =>
        obtain ⟨_, c₁, -, hread⟩ := bind_eq_done.mp hfirst
        exact Nat.max_le.mpr ⟨depth_item hgroup (commit_eq_done.mp hread), ih⟩
  obtain ⟨first, c₁, hfirst, hrest⟩ := bind_eq_done.mp h
  obtain ⟨more, c₂, hlater, hpure⟩ := bind_eq_done.mp hrest
  obtain ⟨rfl, -⟩ := pure_eq_done.mp hpure
  exact Nat.max_le.mpr ⟨depth_item hgroup hfirst, hmore _ _ _ (many_eq_done hlater)⟩

end Depth

/-- Without anything inside the last of its levels a grammar reads no more groups than the others. -/
theorem depth_itemListOver_never (levels : Nat) : ∀ (braces : Bool) (cursor : Cursor)
    (items : List SelectItem) (next : Cursor),
    itemListOver (fun _ => never) (levels + 1) braces cursor = .done items next →
      SelectItem.depthList items ≤ levels := by
  induction levels with
  | zero =>
      intro braces cursor items next h
      apply depth_itemListLevel _ h
      intro braces cursor step next hstep
      exact absurd hstep not_groupStep_never
  | succ levels ih =>
      intro braces cursor items next h
      apply depth_itemListLevel _ h
      intro braces cursor step next hstep
      exact depth_groupStep (ih braces) hstep

end Parser

namespace SelectItem

open Nesting

private theorem depthList_le_limit {source : String} {limit : Nat} {braces : Bool}
    (hlimit : AtMost braces source.toList limit) {fuel : Nat} (hfuel : limit + 1 ≤ fuel)
    {items : List SelectItem} (h : (selectText braces fuel).parse source = .ok items) :
    depthList items ≤ limit := by
  unfold Parser.parse at h
  rw [selectText_eq hlimit hfuel fun _ => never] at h
  split at h <;> cases h
  next next hdone =>
    obtain ⟨read, mid, hread, hrest⟩ := bind_eq_done.mp hdone
    obtain ⟨_, last, -, hpure⟩ := bind_eq_done.mp hrest
    obtain ⟨rfl, -⟩ := pure_eq_done.mp hpure
    exact depth_itemListOver_never limit braces _ _ _ hread

theorem atMost_of_check {source : String} {limit : Nat} {braces : Bool}
    (hcheck : Nesting.check source limit = .ok ())
    (hvalues : ValuesKeepDepth braces source.toList) : AtMost braces source.toList limit :=
  fun _ _ _ _ _ htext hfront => (hfront.counted (check_eq_ok_iff.mp hcheck) hvalues htext).2

/-- As long as no value that is read inside a group closes more brackets than it opens, no beginning of
a text that passes the check of nesting has more groups open than the limit allows. So the text is read
the same, as a select or as an error, whatever stands in the place of the grammar inside more groups, and
the items that are read nest no deeper. -/
theorem nesting_limit_bounds_groups (source : String) (settings : SelectSettings)
    (hcheck : Nesting.check source settings.maxDepth = .ok ())
    (hvalues : ValuesKeepDepth settings.braces source.toList) :
    (∀ place inner outer front rest, source.toList = front ++ rest →
      Beginning settings.braces place inner outer front → outer.length ≤ settings.maxDepth) ∧
    (∀ deeper deeper' : Bool → Parser (List SelectItem),
      selectTextOver settings.braces deeper (settings.maxDepth + 1) (.start source) =
        selectTextOver settings.braces deeper' (settings.maxDepth + 1) (.start source)) ∧
    (∀ fuel, settings.maxDepth + 1 ≤ fuel →
      selectText settings.braces fuel (.start source) =
        selectText settings.braces (settings.maxDepth + 1) (.start source)) ∧
    ∀ items, parse source settings = .ok items → depthList items ≤ settings.maxDepth := by
  have hlimit := atMost_of_check hcheck hvalues
  refine ⟨hlimit, selectTextOver_eq hlimit, fun fuel hfuel => ?_, fun items h => ?_⟩
  · have hleast := selectText_eq hlimit (Nat.le_refl _) fun _ => never
    rw [selectText_eq hlimit hfuel fun _ => never, hleast]
  · have hread := (parse_eq_ok.mp h).2.1
    by_cases hshort : settings.maxDepth ≤ source.length
    · exact depthList_le_limit hlimit (by omega) hread
    · have hall := atMost_of_check (check_length source) hvalues
      have hle := depthList_le_limit hall (Nat.le_refl _) hread
      omega

/-- Three groups around one another, behind two values with brackets in the first of them. -/
private def valuedGroups : String := "[a(filter=b[c=1])(search=\"]\")[[d]]]"

theorem nesting_limit_bounds_groups_values :
    Nesting.check valuedGroups 3 = .ok () ∧ ValuesKeepDepth false valuedGroups.toList ∧
    selectText false 40 (.start valuedGroups) = selectText false 4 (.start valuedGroups) ∧
    ∃ items, parse valuedGroups ⟨false, .initial, 3⟩ = .ok items ∧ depthList items ≤ 3 := by
  have hcheck : Nesting.check valuedGroups 3 = .ok () := by decide
  have hvalues : ValuesKeepDepth false valuedGroups.toList := .of_scan (by decide)
  obtain ⟨-, -, hfuel, hdepth⟩ :=
    nesting_limit_bounds_groups valuedGroups ⟨false, .initial, 3⟩ hcheck hvalues
  have hok : (parse valuedGroups ⟨false, .initial, 3⟩).isOk = true := by decide +kernel
  refine ⟨hcheck, hvalues, hfuel 40 (by decide), ?_⟩
  cases hparse : parse valuedGroups ⟨false, .initial, 3⟩ with
  | error error => simp [hparse, Except.isOk, Except.toBool] at hok
  | ok items => exact ⟨items, rfl, hdepth items hparse⟩

/-- `[a(x=])[a(x=])…[[b]]…]]`, where each value closes a bracket for the check and none for the
grammar. -/
private def burrow : Nat → SelectStep
  | 0 =>
      .group [.chain [.group [.chain [.named ⟨"b", .point 0⟩ []] (.point 0)] [] (.point 0)]
        (.point 0)] [] (.point 0)
  | n + 1 =>
      .group [.chain [.named ⟨"a", .point 0⟩ [⟨⟨"x", .point 0⟩, ⟨"]", .point 0⟩⟩], burrow n]
        (.point 0)] [] (.point 0)

private theorem chars_burrow (n : Nat) :
    (burrow (n + 1)).chars = "[a(x=])".toList ++ ((burrow n).chars ++ [']']) := by
  have hjoint : (burrow n).joint = [] := by cases n <;> rfl
  simp [burrow, SelectStep.chars, listChars, SelectItem.chars, SelectStep.listChars, moreChars,
    SelectStep.laterChars, RawParameter.chars, hjoint]

private theorem firstTooDeep_closers (closers offset : Nat) :
    firstTooDeep 2 .outside 0 offset (List.replicate closers ']') = none := by
  induction closers generalizing offset with
  | zero => rfl
  | succ closers ih => rw [List.replicate_succ, firstTooDeep_closer rfl, ih]

/-- The count is back at zero behind each value, so it never goes past two. -/
private theorem firstTooDeep_burrow (n closers offset : Nat) :
    firstTooDeep 2 .outside 0 offset ((burrow n).chars ++ List.replicate closers ']') = none := by
  induction n generalizing closers offset with
  | zero =>
      have hends := firstTooDeep_closers closers
      have htext : (burrow 0).chars = "[[b]]".toList := by decide
      rw [htext]
      simp [firstTooDeep, QuoteState.skips, QuoteState.step, isOpener, isCloser, hends]
  | succ n ih =>
      have htext : (burrow (n + 1)).chars ++ List.replicate closers ']' =
          "[a(x=])".toList ++ ((burrow n).chars ++ List.replicate (closers + 1) ']') := by
        rw [chars_burrow, List.append_assoc, List.append_assoc, List.replicate_succ]
        rfl
      rw [htext]
      simp [firstTooDeep, QuoteState.skips, QuoteState.step, isOpener, isCloser, ih]

private theorem wellFormed_burrow (braces : Bool) (n : Nat) : (burrow n).WellFormed braces := by
  induction n generalizing braces with
  | zero =>
      refine ⟨⟨⟨⟨⟨⟨⟨?_, by simp⟩, trivial⟩, trivial⟩, by simp⟩, trivial⟩, trivial⟩, by simp⟩
      cases braces <;> decide
  | succ n ih =>
      refine ⟨⟨⟨⟨?_, ?_⟩, ih false, trivial⟩, trivial⟩, by simp⟩
      · cases braces <;> decide
      · rw [List.forall_mem_singleton]
        exact ⟨by decide, by decide, by decide⟩

private theorem distinct_burrow (n : Nat) :
    ∀ step ∈ (burrow n).allSteps, step.parameterNames.Nodup := by
  induction n with
  | zero =>
      simp [burrow, SelectStep.allSteps, allStepsList, allSteps, SelectStep.allStepsList,
        SelectStep.parameterNames, SelectStep.parameters]
  | succ n ih =>
      simpa [burrow, SelectStep.allSteps, allStepsList, allSteps, SelectStep.allStepsList,
        SelectStep.parameterNames, SelectStep.parameters] using ih

private theorem depth_place_burrow (n offset : Nat) : ((burrow n).place offset).depth = n + 2 := by
  induction n generalizing offset with
  | zero => rfl
  | succ n ih =>
      simp [burrow, SelectStep.place, placeList, SelectItem.place, SelectStep.placeList, placeMore,
        SelectStep.placeLater, SelectStep.depth, depthList, SelectItem.depth, SelectStep.depthList,
        ih]

private theorem parse_burrow (n : Nat) (settings : SelectSettings) (hdepth : settings.maxDepth = 2) :
    Nesting.check (render [.chain [burrow n] (.point 0)]) 2 = .ok () ∧
      ∃ items, parse (render [.chain [burrow n] (.point 0)]) settings = .ok items ∧
        depthList items = n + 2 := by
  have htext : listChars [.chain [burrow n] (.point 0)] = (burrow n).chars := by
    simp [listChars, SelectItem.chars, SelectStep.listChars, moreChars, SelectStep.laterChars]
  have hcheck : Nesting.check (render [.chain [burrow n] (.point 0)]) 2 = .ok () := by
    have hscan := firstTooDeep_burrow n 0 0
    rw [List.replicate_zero, List.append_nil] at hscan
    rw [Nesting.check, render, String.toList_ofList, htext, hscan]
  have hwritable : Writable settings.braces [.chain [burrow n] (.point 0)] := by
    refine ⟨by simp, ⟨⟨wellFormed_burrow _ n, trivial⟩, trivial⟩, ?_⟩
    simpa [Distinct, allStepsList, allSteps, SelectStep.allStepsList] using distinct_burrow n
  refine ⟨hcheck, _, parse_render hwritable (hdepth ▸ hcheck), ?_⟩
  simp [placeList, SelectItem.place, SelectStep.placeList, placeMore, SelectStep.placeLater,
    depthList, SelectItem.depth, SelectStep.depthList, depth_place_burrow]

/-- At a limit of two, three groups stand around one another, and no limit bounds how many do. -/
theorem nesting_limit_escaped :
    (Nesting.check "[a(x=])[[b]]]" 2 = .ok () ∧
      ∃ items, parse "[a(x=])[[b]]]" ⟨false, .initial, 2⟩ = .ok items ∧ depthList items = 3) ∧
    ¬∃ bound : Nat → Nat, ∀ (source : String) (settings : SelectSettings) (items : List SelectItem),
      Nesting.check source settings.maxDepth = .ok () → parse source settings = .ok items →
        depthList items ≤ bound settings.maxDepth := by
  constructor
  · have htext : render [.chain [burrow 1] (.point 0)] = "[a(x=])[[b]]]" := by decide
    rw [← htext]
    exact parse_burrow 1 ⟨false, .initial, 2⟩ rfl
  · rintro ⟨bound, hbound⟩
    obtain ⟨hcheck, items, hparse, hdepth⟩ := parse_burrow (bound 2) ⟨false, .initial, 2⟩ rfl
    have hle := hbound _ ⟨false, .initial, 2⟩ items hcheck hparse
    simp only at hle
    omega

end SelectItem

end RequestQuery
