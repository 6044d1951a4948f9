import RequestQuery.Proofs.Select.Rendering
import RequestQuery.Proofs.Select.Steps
import RequestQuery.Proofs.Text.Slices

/-!
# Reading and writing selects

Reading a select loses nothing. Items that are read are well formed, they are written as the text they
were read from, and their spans are where they stand in it. With the other direction, reading and writing
are inverse to one another.
-/

namespace RequestQuery

open RequestQuery.Parser

/-- A value that was read between two cursors: it satisfies what is asked of it, its text is what was
passed, and its spans are where it stands. -/
structure ReadAs {α : Type} (well : α → Prop) (chars : α → List Char) (place : α → Nat → α)
    (cursor : Cursor) (value : α) (next : Cursor) : Prop where
  well : well value
  passes : cursor.Passes (chars value) next
  placed : place value cursor.offset = value

theorem parameterText_eq_done {cursor next : Cursor} {s : String}
    (h : parameterText cursor = .done s next) :
    s.toList ≠ [] ∧ Nesting.valueChars .outside 0 cursor.rest = s.toList ∧
      cursor.Passes s.toList next := by
  unfold parameterText at h
  split at h <;> cases h
  next hne =>
    obtain ⟨rest, hrest⟩ := Nesting.valueChars_isPrefix .outside 0 cursor.rest
    rw [String.toList_ofList]
    refine ⟨hne, rfl, ?_, rfl⟩
    have hdrop := congrArg (List.drop (Nesting.valueChars .outside 0 cursor.rest).length) hrest
    rw [List.drop_left] at hdrop
    rw [Cursor.skip, ← hdrop, hrest]

theorem parameter_eq_done {cursor next : Cursor} {p : RawParameter}
    (h : parameter cursor = .done p next) :
    ReadAs RawParameter.WellFormed RawParameter.chars RawParameter.place cursor p next := by
  obtain ⟨_, c₁, hopener, h₁⟩ := bind_eq_done.mp h
  obtain ⟨name, c₂, hname, h₂⟩ := bind_eq_done.mp (commit_eq_done.mp h₁)
  obtain ⟨_, c₃, hequals, h₃⟩ := bind_eq_done.mp h₂
  obtain ⟨value, c₄, hvalue, h₄⟩ := bind_eq_done.mp h₃
  obtain ⟨_, c₅, hcloser, h₅⟩ := bind_eq_done.mp h₄
  obtain ⟨rfl, rfl⟩ := pure_eq_done.mp h₅
  obtain ⟨text, htext, hnamePasses, rfl⟩ := Grammar.name_eq_done hname
  obtain ⟨hread, hspan⟩ := spanned_eq_done (labelled_eq_done.mp hvalue)
  obtain ⟨hne, hchars, hvaluePasses⟩ := parameterText_eq_done hread
  have hopenerPasses := char_eq_done hopener
  have hequalsPasses := char_eq_done (labelled_eq_done.mp hequals)
  have hcloserPasses := char_eq_done (labelled_eq_done.mp hcloser)
  have hfront := hopenerPasses.trans (hnamePasses.trans hequalsPasses)
  refine ⟨⟨?_, hne, ?_⟩, ?_, ?_⟩
  · rwa [String.toList_ofList]
  · apply Nesting.closesEven_of_valueChars hchars
    rw [hvaluePasses.rest, hcloserPasses.rest, List.singleton_append]
  · have hall := hopenerPasses.trans (hnamePasses.trans
      (hequalsPasses.trans (hvaluePasses.trans hcloserPasses)))
    simpa [RawParameter.chars] using hall
  · obtain ⟨v, span⟩ := value
    simp only at hspan
    simp only [RawParameter.place, String.toList_ofList, hspan, hvaluePasses.offset, hfront.offset,
      hopenerPasses.offset, byteLength_append, Nat.add_assoc]

private theorem repeated_parameter {cursor next : Cursor} {parameters : List RawParameter}
    (h : Repeated parameter cursor parameters next) :
    ReadAs (fun ps => ∀ p ∈ ps, p.WellFormed) (fun ps => ps.flatMap RawParameter.chars)
      RawParameter.placeAll cursor parameters next := by
  induction h with
  | stop cursor => exact ⟨by simp, .refl cursor, rfl⟩
  | step hfirst _ ih =>
      have hread := parameter_eq_done hfirst
      refine ⟨List.forall_mem_cons.mpr ⟨hread.well, ih.well⟩, ?_, ?_⟩
      · exact hread.passes.trans ih.passes
      · rw [RawParameter.placeAll, hread.placed, ← hread.passes.offset, ih.placed]

theorem attributeName_eq_done {braces : Bool} {cursor next : Cursor} {a : Spanned String}
    (h : attributeName braces cursor = .done a next) :
    IsRun (nameClass braces) a.value.toList ∧ cursor.Passes a.value.toList next ∧
      a.span = ⟨cursor.offset, next.offset⟩ := by
  rw [attributeName_eq] at h
  obtain ⟨htext, hspan⟩ := spanned_eq_done (labelled_eq_done.mp h)
  obtain ⟨text, hpasses, hne, hall, hvalue⟩ := textOf_eq_done htext
  rw [hvalue, String.toList_ofList]
  exact ⟨⟨hne, hall⟩, hpasses, hspan⟩

private theorem namedStep_eq_done {braces : Bool} {cursor next : Cursor} {step : SelectStep}
    (h : namedStep braces cursor = .done step next) :
    ReadAs (SelectStep.WellFormed braces) SelectStep.chars SelectStep.place cursor step next ∧
      step.joint = ['.'] := by
  obtain ⟨name, c₁, hname, h₁⟩ := bind_eq_done.mp h
  obtain ⟨parameters, c₂, hparameters, h₂⟩ := bind_eq_done.mp h₁
  obtain ⟨rfl, rfl⟩ := pure_eq_done.mp h₂
  obtain ⟨hrun, hpasses, hspan⟩ := attributeName_eq_done hname
  have hread := repeated_parameter (many_eq_done hparameters)
  refine ⟨⟨⟨hrun, hread.well⟩, hpasses.trans hread.passes, ?_⟩, rfl⟩
  obtain ⟨value, span⟩ := name
  simp only at hspan hpasses
  rw [SelectStep.place, ← hpasses.offset, hread.placed, hspan]

/-- What a parser of lists of items reads. -/
def ReadsItems (braces : Bool) (p : Parser (List SelectItem)) : Prop :=
  ∀ cursor items next, p cursor = .done items next →
    ReadAs (fun items => items ≠ [] ∧ SelectItem.WellFormedList braces items) SelectItem.listChars
      SelectItem.placeList cursor items next

private theorem groupStep_eq_done {braces : Bool} {inner : Parser (List SelectItem)}
    (hinner : ReadsItems braces inner) {cursor next : Cursor} {step : SelectStep}
    (h : groupStep inner cursor = .done step next) :
    ReadAs (SelectStep.WellFormed braces) SelectStep.chars SelectStep.place cursor step next ∧
      step.joint = [] := by
  obtain ⟨brackets, c₁, hbrackets, h₁⟩ := bind_eq_done.mp h
  obtain ⟨parameters, c₂, hparameters, h₂⟩ := bind_eq_done.mp h₁
  obtain ⟨rfl, rfl⟩ := pure_eq_done.mp h₂
  obtain ⟨hread, hspan⟩ := spanned_eq_done hbrackets
  obtain ⟨members, span⟩ := brackets
  simp only at hread hspan
  obtain ⟨_, d₁, hopener, k₁⟩ := bind_eq_done.mp hread
  obtain ⟨found, d₂, hfound, k₂⟩ := bind_eq_done.mp (commit_eq_done.mp k₁)
  obtain ⟨_, d₃, hcloser, k₃⟩ := bind_eq_done.mp k₂
  obtain ⟨rfl, rfl⟩ := pure_eq_done.mp k₃
  have hmembers : ReadAs (SelectItem.WellFormedList braces) SelectItem.listChars
      SelectItem.placeList d₁ (found.getD []) d₂ := by
    rcases optional_eq_done hfound with ⟨items, rfl, hitems⟩ | ⟨rfl, rfl⟩
    · have hlist := hinner _ _ _ hitems
      exact ⟨hlist.well.2, hlist.passes, hlist.placed⟩
    · exact ⟨trivial, .refl _, rfl⟩
  have hopenerPasses := char_eq_done hopener
  have hcloserPasses := char_eq_done (labelled_eq_done.mp hcloser)
  have hpasses : cursor.Passes ('[' :: (SelectItem.listChars (found.getD []) ++ [']'])) d₃ :=
    hopenerPasses.trans (hmembers.passes.trans hcloserPasses)
  have hlist := repeated_parameter (many_eq_done hparameters)
  refine ⟨⟨⟨hmembers.well, hlist.well⟩, ?_, ?_⟩, rfl⟩
  · simpa [SelectStep.chars] using hpasses.trans hlist.passes
  · simp only [SelectStep.place]
    rw [← hpasses.offset, hlist.placed, hspan, ← hopenerPasses.offset, hmembers.placed]

private theorem repeated_nextStep {inner : Bool → Parser (List SelectItem)}
    (hinner : ReadsItems false (inner false)) {cursor next : Cursor} {steps : List SelectStep}
    (h : Repeated (nextStep inner) cursor steps next) :
    ReadAs SelectStep.WellFormedLater SelectStep.laterChars SelectStep.placeLater cursor steps
      next := by
  induction h with
  | stop cursor => exact ⟨trivial, .refl cursor, rfl⟩
  | @step cursor mid next step steps hfirst _ ih =>
      have hstep : ∃ behind, cursor.Passes step.joint behind ∧
          ReadAs (SelectStep.WellFormed false) SelectStep.chars SelectStep.place behind step
            mid := by
        rcases either_eq_done hfirst with hnamed | hgroup
        · obtain ⟨_, behind, hpoint, hread⟩ := bind_eq_done.mp hnamed
          obtain ⟨hstep, hjoint⟩ := namedStep_eq_done (commit_eq_done.mp hread)
          exact ⟨behind, hjoint ▸ char_eq_done hpoint, hstep⟩
        · obtain ⟨hstep, hjoint⟩ := groupStep_eq_done hinner hgroup
          exact ⟨cursor, hjoint ▸ .refl cursor, hstep⟩
      obtain ⟨behind, hjoint, hread⟩ := hstep
      have hfront := hjoint.trans hread.passes
      refine ⟨⟨hread.well, ih.well⟩, ?_, ?_⟩
      · simpa [SelectStep.laterChars] using hfront.trans ih.passes
      · rw [SelectStep.placeLater, ← hjoint.offset, hread.placed, ← hfront.offset, ih.placed]

private theorem item_eq_done {inner : Bool → Parser (List SelectItem)}
    (hinner : ∀ braces, ReadsItems braces (inner braces)) {braces : Bool} {cursor next : Cursor}
    {read : SelectItem} (h : item inner braces cursor = .done read next) :
    ReadAs (SelectItem.WellFormed braces) SelectItem.chars SelectItem.place cursor read next := by
  obtain ⟨steps, c₁, hsteps, h₁⟩ := bind_eq_done.mp h
  obtain ⟨rfl, rfl⟩ := pure_eq_done.mp h₁
  obtain ⟨hchain, hspan⟩ := spanned_eq_done hsteps
  obtain ⟨first, d₁, hfirst, k₁⟩ := bind_eq_done.mp hchain
  obtain ⟨more, d₂, hmore, k₂⟩ := bind_eq_done.mp k₁
  obtain ⟨hvalue, rfl⟩ := pure_eq_done.mp k₂
  obtain ⟨value, span⟩ := steps
  simp only at hvalue hspan
  subst hvalue
  have hstep : ReadAs (SelectStep.WellFormed braces) SelectStep.chars SelectStep.place cursor first
      d₁ := by
    rcases either_eq_done hfirst with hnamed | hgroup
    · exact (namedStep_eq_done hnamed).1
    · exact (groupStep_eq_done (hinner braces) hgroup).1
  have hlater := repeated_nextStep (hinner false) (many_eq_done hmore)
  have hpasses := hstep.passes.trans hlater.passes
  refine ⟨⟨hstep.well, hlater.well⟩, hpasses, ?_⟩
  rw [SelectItem.place, SelectStep.placeList, hstep.placed, ← hstep.passes.offset, hlater.placed,
    hspan, hpasses.offset]
  rfl

private theorem repeated_moreItems {inner : Bool → Parser (List SelectItem)}
    (hinner : ∀ braces, ReadsItems braces (inner braces)) {braces : Bool} {cursor next : Cursor}
    {items : List SelectItem}
    (h : Repeated (do char ','; commit (item inner braces)) cursor items next) :
    ReadAs (SelectItem.WellFormedList braces) SelectItem.moreChars SelectItem.placeMore cursor items
      next := by
  induction h with
  | stop cursor => exact ⟨trivial, .refl cursor, rfl⟩
  | @step cursor mid next read items hfirst _ ih =>
      obtain ⟨_, behind, hcomma, hread⟩ := bind_eq_done.mp hfirst
      have hitem := item_eq_done hinner (commit_eq_done.mp hread)
      have hcommaPasses := char_eq_done hcomma
      have hfront : cursor.Passes (',' :: read.chars) mid := hcommaPasses.trans hitem.passes
      refine ⟨⟨hitem.well, ih.well⟩, hfront.trans ih.passes, ?_⟩
      rw [SelectItem.placeMore, ← hcommaPasses.offset, hitem.placed, ← hfront.offset, ih.placed]

theorem readsItems_itemList (fuel : Nat) : ∀ braces, ReadsItems braces (itemList fuel braces) := by
  induction fuel with
  | zero => intro braces cursor items next h; cases h
  | succ fuel ih =>
      intro braces cursor items next h
      obtain ⟨first, c₁, hfirst, h₁⟩ := bind_eq_done.mp h
      obtain ⟨more, c₂, hmore, h₂⟩ := bind_eq_done.mp h₁
      obtain ⟨rfl, rfl⟩ := pure_eq_done.mp h₂
      have hitem := item_eq_done ih hfirst
      have hlist := repeated_moreItems ih (many_eq_done hmore)
      refine ⟨⟨by simp, hitem.well, hlist.well⟩, hitem.passes.trans hlist.passes, ?_⟩
      rw [SelectItem.placeList, hitem.placed, ← hitem.passes.offset, hlist.placed]

def RawParameter.Exact (source : List Char) (p : RawParameter) : Prop :=
  Slices source p.name.span p.name.value.toList ∧ Slices source p.value.span p.value.value.toList

/-- The spans of a name, of brackets, of the members between them and of parameters. -/
def SelectStep.Exact (source : List Char) : SelectStep → Prop
  | .named name parameters =>
      Slices source name.span name.value.toList ∧ ∀ p ∈ parameters, p.Exact source
  | .group members parameters span =>
      Slices source span ('[' :: (SelectItem.listChars members ++ [']'])) ∧
        (∀ item ∈ members, Slices source item.span item.chars) ∧ ∀ p ∈ parameters, p.Exact source

/-- All spans of items, at every level of groups. -/
def SelectItem.ExactList (source : List Char) (items : List SelectItem) : Prop :=
  (∀ item ∈ items, Slices source item.span item.chars) ∧
    ∀ step ∈ SelectItem.allStepsList items, step.Exact source

section Exact

variable {source : List Char}

private theorem RawParameter.exact {p : RawParameter} {before after : List Char}
    (hplaced : p.place (byteLength before) = p) (hsource : source = before ++ (p.chars ++ after)) :
    p.Exact source := by
  have hname := congrArg (fun q : RawParameter => q.name.span) hplaced
  have hvalue := congrArg (fun q : RawParameter => q.value.span) hplaced
  simp only [RawParameter.place] at hname hvalue
  constructor
  · refine ⟨before ++ ['('], '=' :: (p.value.value.toList ++ ')' :: after), ?_, ?_⟩
    · simp [hsource, RawParameter.chars]
    · rw [← hname]
      simp
  · refine ⟨before ++ '(' :: (p.name.value.toList ++ ['=']), ')' :: after, ?_, ?_⟩
    · simp [hsource, RawParameter.chars]
    · rw [← hvalue]
      simp [Nat.add_assoc]

private theorem RawParameter.exactAll {parameters : List RawParameter} {before after : List Char}
    (hplaced : RawParameter.placeAll parameters (byteLength before) = parameters)
    (hsource : source = before ++ (parameters.flatMap RawParameter.chars ++ after)) :
    ∀ p ∈ parameters, p.Exact source := by
  induction parameters generalizing before with
  | nil => simp
  | cons p parameters ih =>
      rw [RawParameter.placeAll, List.cons.injEq, ← byteLength_append] at hplaced
      rw [List.flatMap_cons, List.append_assoc] at hsource
      rw [List.forall_mem_cons]
      exact ⟨RawParameter.exact hplaced.1 hsource, ih hplaced.2 (by simpa using hsource)⟩

mutual
private theorem SelectItem.exact : ∀ (item : SelectItem) (before after : List Char),
    item.place (byteLength before) = item → source = before ++ (item.chars ++ after) →
      Slices source item.span item.chars ∧ ∀ step ∈ item.allSteps, step.Exact source
  | .chain steps span, before, after, hplaced, hsource => by
      simp only [SelectItem.place, SelectItem.chain.injEq] at hplaced
      exact ⟨⟨before, after, hsource, hplaced.2.symm⟩,
        SelectStep.exactList steps before after hplaced.1 hsource⟩

private theorem SelectItem.exactList : ∀ (items : List SelectItem) (before after : List Char),
    SelectItem.placeList items (byteLength before) = items →
    source = before ++ (SelectItem.listChars items ++ after) → SelectItem.ExactList source items
  | [], _, _, _, _ => by simp [SelectItem.ExactList, SelectItem.allStepsList]
  | item :: more, before, after, hplaced, hsource => by
      rw [SelectItem.placeList, List.cons.injEq, ← byteLength_append] at hplaced
      rw [SelectItem.listChars, List.append_assoc] at hsource
      have hfirst := item.exact before _ hplaced.1 hsource
      have hmore := SelectItem.exactMore more (before ++ item.chars) after hplaced.2
        (by simpa using hsource)
      exact ⟨List.forall_mem_cons.mpr ⟨hfirst.1, hmore.1⟩,
        List.forall_mem_append.mpr ⟨hfirst.2, hmore.2⟩⟩

private theorem SelectItem.exactMore : ∀ (items : List SelectItem) (before after : List Char),
    SelectItem.placeMore items (byteLength before) = items →
    source = before ++ (SelectItem.moreChars items ++ after) → SelectItem.ExactList source items
  | [], _, _, _, _ => by simp [SelectItem.ExactList, SelectItem.allStepsList]
  | item :: more, before, after, hplaced, hsource => by
      rw [SelectItem.placeMore, List.cons.injEq, ← byteLength_append, ← byteLength_append] at hplaced
      rw [SelectItem.moreChars] at hsource
      have hfirst := item.exact (before ++ [',']) (SelectItem.moreChars more ++ after) hplaced.1
        (by simpa using hsource)
      have hmore := SelectItem.exactMore more (before ++ ',' :: item.chars) after hplaced.2
        (by simpa using hsource)
      exact ⟨List.forall_mem_cons.mpr ⟨hfirst.1, hmore.1⟩,
        List.forall_mem_append.mpr ⟨hfirst.2, hmore.2⟩⟩

private theorem SelectStep.exact : ∀ (step : SelectStep) (before after : List Char),
    step.place (byteLength before) = step → source = before ++ (step.chars ++ after) →
      ∀ s ∈ step.allSteps, s.Exact source
  | .named name parameters, before, after, hplaced, hsource => by
      simp only [SelectStep.place, SelectStep.named.injEq, ← byteLength_append] at hplaced
      rw [SelectStep.chars, List.append_assoc] at hsource
      have hspan := congrArg Spanned.span hplaced.1
      have hbehind : source = before ++ name.value.toList ++
          (parameters.flatMap RawParameter.chars ++ after) := by
        rw [hsource, List.append_assoc]
      have hparameters := RawParameter.exactAll hplaced.2 hbehind
      rw [SelectStep.allSteps, List.forall_mem_singleton]
      exact ⟨⟨before, _, hsource, by rw [← hspan, byteLength_append]⟩, hparameters⟩
  | .group members parameters span, before, after, hplaced, hsource => by
      simp only [SelectStep.place, SelectStep.group.injEq] at hplaced
      obtain ⟨hmembersPlaced, hparametersPlaced, hspan⟩ := hplaced
      rw [← byteLength_append] at hmembersPlaced hparametersPlaced
      have hmembers := SelectItem.exactList members (before ++ ['['])
        (']' :: (parameters.flatMap RawParameter.chars ++ after)) hmembersPlaced
        (by simpa [SelectStep.chars] using hsource)
      have hbrackets : source = before ++ ('[' :: (SelectItem.listChars members ++ [']']) ++
          (parameters.flatMap RawParameter.chars ++ after)) := by
        simpa [SelectStep.chars] using hsource
      have hparameters := RawParameter.exactAll hparametersPlaced
        (hbrackets.trans (List.append_assoc ..).symm)
      rw [SelectStep.allSteps, List.forall_mem_cons]
      exact ⟨⟨⟨before, _, hbrackets, hspan.symm⟩, hmembers.1, hparameters⟩, hmembers.2⟩

private theorem SelectStep.exactList : ∀ (steps : List SelectStep) (before after : List Char),
    SelectStep.placeList steps (byteLength before) = steps →
    source = before ++ (SelectStep.listChars steps ++ after) →
      ∀ s ∈ SelectStep.allStepsList steps, s.Exact source
  | [], _, _, _, _ => by simp [SelectStep.allStepsList]
  | step :: more, before, after, hplaced, hsource => by
      rw [SelectStep.placeList, List.cons.injEq, ← byteLength_append] at hplaced
      rw [SelectStep.listChars, List.append_assoc] at hsource
      have hfirst := step.exact before _ hplaced.1 hsource
      have hmore := SelectStep.exactLater more (before ++ step.chars) after hplaced.2
        (by simpa using hsource)
      exact List.forall_mem_append.mpr ⟨hfirst, hmore⟩

private theorem SelectStep.exactLater : ∀ (steps : List SelectStep) (before after : List Char),
    SelectStep.placeLater steps (byteLength before) = steps →
    source = before ++ (SelectStep.laterChars steps ++ after) →
      ∀ s ∈ SelectStep.allStepsList steps, s.Exact source
  | [], _, _, _, _ => by simp [SelectStep.allStepsList]
  | step :: more, before, after, hplaced, hsource => by
      rw [SelectStep.placeLater, List.cons.injEq, ← byteLength_append, ← byteLength_append] at hplaced
      rw [SelectStep.laterChars] at hsource
      have hfirst := step.exact (before ++ step.joint) (SelectStep.laterChars more ++ after) hplaced.1
        (by simpa using hsource)
      have hmore := SelectStep.exactLater more (before ++ (step.joint ++ step.chars)) after hplaced.2
        (by simpa using hsource)
      exact List.forall_mem_append.mpr ⟨hfirst, hmore⟩
end

end Exact

def RawParameter.unplaced (p : RawParameter) : RawParameter :=
  ⟨⟨p.name.value, .point 0⟩, ⟨p.value.value, .point 0⟩⟩

mutual
def SelectItem.unplaced : SelectItem → SelectItem
  | .chain steps _ => .chain (SelectStep.unplacedList steps) (.point 0)

def SelectItem.unplacedList : List SelectItem → List SelectItem
  | [] => []
  | item :: rest => item.unplaced :: SelectItem.unplacedList rest

def SelectStep.unplaced : SelectStep → SelectStep
  | .named name parameters =>
      .named ⟨name.value, .point 0⟩ (parameters.map RawParameter.unplaced)
  | .group members parameters _ =>
      .group (SelectItem.unplacedList members) (parameters.map RawParameter.unplaced) (.point 0)

def SelectStep.unplacedList : List SelectStep → List SelectStep
  | [] => []
  | step :: rest => step.unplaced :: SelectStep.unplacedList rest
end

private theorem RawParameter.unplaced_placeAll (parameters : List RawParameter) (offset : Nat) :
    (RawParameter.placeAll parameters offset).map RawParameter.unplaced =
      parameters.map RawParameter.unplaced := by
  induction parameters generalizing offset with
  | nil => rfl
  | cons p parameters ih =>
      rw [RawParameter.placeAll, List.map_cons, List.map_cons, ih]
      rfl

mutual
private theorem SelectItem.unplaced_place : ∀ (item : SelectItem) (offset : Nat),
    (item.place offset).unplaced = item.unplaced
  | .chain steps _, offset => by
      rw [SelectItem.place, SelectItem.unplaced, SelectItem.unplaced,
        SelectStep.unplaced_placeList steps offset]

theorem SelectItem.unplaced_placeList : ∀ (items : List SelectItem) (offset : Nat),
    SelectItem.unplacedList (SelectItem.placeList items offset) = SelectItem.unplacedList items
  | [], _ => rfl
  | item :: rest, offset => by
      rw [SelectItem.placeList, SelectItem.unplacedList, SelectItem.unplacedList,
        item.unplaced_place, SelectItem.unplaced_placeMore rest]

private theorem SelectItem.unplaced_placeMore : ∀ (items : List SelectItem) (offset : Nat),
    SelectItem.unplacedList (SelectItem.placeMore items offset) = SelectItem.unplacedList items
  | [], _ => rfl
  | item :: rest, offset => by
      rw [SelectItem.placeMore, SelectItem.unplacedList, SelectItem.unplacedList,
        item.unplaced_place, SelectItem.unplaced_placeMore rest]

private theorem SelectStep.unplaced_place : ∀ (step : SelectStep) (offset : Nat),
    (step.place offset).unplaced = step.unplaced
  | .named name parameters, offset => by
      rw [SelectStep.place, SelectStep.unplaced, SelectStep.unplaced,
        RawParameter.unplaced_placeAll]
  | .group members parameters _, offset => by
      simp only [SelectStep.place, SelectStep.unplaced]
      rw [SelectItem.unplaced_placeList members, RawParameter.unplaced_placeAll]

private theorem SelectStep.unplaced_placeList : ∀ (steps : List SelectStep) (offset : Nat),
    SelectStep.unplacedList (SelectStep.placeList steps offset) = SelectStep.unplacedList steps
  | [], _ => rfl
  | step :: rest, offset => by
      rw [SelectStep.placeList, SelectStep.unplacedList, SelectStep.unplacedList,
        step.unplaced_place, SelectStep.unplaced_placeLater rest]

private theorem SelectStep.unplaced_placeLater : ∀ (steps : List SelectStep) (offset : Nat),
    SelectStep.unplacedList (SelectStep.placeLater steps offset) = SelectStep.unplacedList steps
  | [], _ => rfl
  | step :: rest, offset => by
      rw [SelectStep.placeLater, SelectStep.unplacedList, SelectStep.unplacedList,
        step.unplaced_place, SelectStep.unplaced_placeLater rest]
end

private theorem SelectStep.parameterNames_unplaced (step : SelectStep) :
    step.unplaced.parameterNames = step.parameterNames := by
  cases step with
  | named name parameters =>
      simp [SelectStep.unplaced, SelectStep.parameterNames, SelectStep.parameters,
        RawParameter.unplaced]
  | group members parameters span =>
      simp [SelectStep.unplaced, SelectStep.parameterNames, SelectStep.parameters,
        RawParameter.unplaced]

mutual
private theorem SelectItem.allSteps_unplaced : ∀ item : SelectItem,
    item.unplaced.allSteps = item.allSteps.map SelectStep.unplaced
  | .chain steps _ => by
      rw [SelectItem.unplaced, SelectItem.allSteps, SelectItem.allSteps,
        SelectStep.allStepsList_unplaced steps]

private theorem SelectItem.allStepsList_unplaced : ∀ items : List SelectItem,
    SelectItem.allStepsList (SelectItem.unplacedList items) =
      (SelectItem.allStepsList items).map SelectStep.unplaced
  | [] => rfl
  | item :: rest => by
      rw [SelectItem.unplacedList, SelectItem.allStepsList, SelectItem.allStepsList,
        List.map_append, item.allSteps_unplaced, SelectItem.allStepsList_unplaced rest]

private theorem SelectStep.allSteps_unplaced : ∀ step : SelectStep,
    step.unplaced.allSteps = step.allSteps.map SelectStep.unplaced
  | .named name parameters => by simp [SelectStep.unplaced, SelectStep.allSteps]
  | .group members parameters _ => by
      simp only [SelectStep.unplaced, SelectStep.allSteps, List.map_cons]
      rw [SelectItem.allStepsList_unplaced members]

private theorem SelectStep.allStepsList_unplaced : ∀ steps : List SelectStep,
    SelectStep.allStepsList (SelectStep.unplacedList steps) =
      (SelectStep.allStepsList steps).map SelectStep.unplaced
  | [] => rfl
  | step :: rest => by
      rw [SelectStep.unplacedList, SelectStep.allStepsList, SelectStep.allStepsList,
        List.map_append, step.allSteps_unplaced, SelectStep.allStepsList_unplaced rest]
end

/-- No step has two parameters of one name. -/
def SelectItem.Distinct (items : List SelectItem) : Prop :=
  ∀ step ∈ SelectItem.allStepsList items, step.parameterNames.Nodup

private theorem SelectItem.distinct_unplacedList (items : List SelectItem) :
    SelectItem.Distinct (SelectItem.unplacedList items) ↔ SelectItem.Distinct items := by
  unfold SelectItem.Distinct
  rw [SelectItem.allStepsList_unplaced]
  simp only [List.forall_mem_map, SelectStep.parameterNames_unplaced]

mutual
private theorem SelectItem.depth_le : ∀ item : SelectItem, item.depth ≤ item.chars.length
  | .chain steps _ => SelectStep.depthList_le steps

private theorem SelectItem.depthList_le : ∀ items : List SelectItem,
    SelectItem.depthList items ≤ (SelectItem.listChars items).length
  | [] => Nat.zero_le _
  | item :: rest => by
      have hfirst := item.depth_le
      have hrest := SelectItem.depthList_le_more rest
      simp only [SelectItem.depthList, SelectItem.listChars, List.length_append]
      omega

private theorem SelectItem.depthList_le_more : ∀ items : List SelectItem,
    SelectItem.depthList items ≤ (SelectItem.moreChars items).length
  | [] => Nat.zero_le _
  | item :: rest => by
      have hfirst := item.depth_le
      have hrest := SelectItem.depthList_le_more rest
      simp only [SelectItem.depthList, SelectItem.moreChars, List.length_cons, List.length_append]
      omega

private theorem SelectStep.depth_le : ∀ step : SelectStep, step.depth ≤ step.chars.length
  | .named name parameters => Nat.zero_le _
  | .group members parameters _ => by
      have hmembers := SelectItem.depthList_le members
      simp only [SelectStep.depth, SelectStep.chars, List.length_cons, List.length_append]
      omega

private theorem SelectStep.depthList_le : ∀ steps : List SelectStep,
    SelectStep.depthList steps ≤ (SelectStep.listChars steps).length
  | [] => Nat.zero_le _
  | step :: rest => by
      have hfirst := step.depth_le
      have hrest := SelectStep.depthList_le_later rest
      simp only [SelectStep.depthList, SelectStep.listChars, List.length_append]
      omega

private theorem SelectStep.depthList_le_later : ∀ steps : List SelectStep,
    SelectStep.depthList steps ≤ (SelectStep.laterChars steps).length
  | [] => Nat.zero_le _
  | step :: rest => by
      have hfirst := step.depth_le
      have hrest := SelectStep.depthList_le_later rest
      simp only [SelectStep.depthList, SelectStep.laterChars, List.length_append]
      omega
end

namespace SelectItem

structure Writable (braces : Bool) (items : List SelectItem) : Prop where
  nonempty : items ≠ []
  wellFormed : WellFormedList braces items
  distinct : Distinct items

private theorem listChars_ne_nil {braces : Bool} {items : List SelectItem} (hne : items ≠ [])
    (h : WellFormedList braces items) : listChars items ≠ [] := by
  obtain ⟨⟨steps, span⟩, rest, rfl⟩ := List.exists_cons_of_ne_nil hne
  cases steps with
  | nil => exact h.1.elim
  | cons step steps =>
      have hstep := SelectStep.chars_ne_nil h.1.1
      simp [listChars, SelectItem.chars, SelectStep.listChars, hstep]

private theorem selectText_eq_done {braces : Bool} {fuel : Nat} {source : String}
    {items : List SelectItem} (h : (selectText braces fuel).parse source = .ok items) :
    (items ≠ [] ∧ WellFormedList braces items) ∧ source.toList = listChars items ∧
      placeList items 0 = items := by
  unfold Parser.parse at h
  split at h <;> cases h
  next next hdone =>
    obtain ⟨read, mid, hread, hrest⟩ := bind_eq_done.mp hdone
    obtain ⟨_, last, hend, hpure⟩ := bind_eq_done.mp hrest
    obtain ⟨rfl, rfl⟩ := pure_eq_done.mp hpure
    have hlist := readsItems_itemList fuel braces _ _ _ hread
    have hnil := (atEnd_eq_done (labelled_eq_done.mp hend)).1
    refine ⟨hlist.well, ?_, hlist.placed⟩
    have htext := hlist.passes.rest
    rwa [hnil, List.append_nil] at htext

theorem exactList_of_selectText {braces : Bool} {fuel : Nat} {source : String}
    {items : List SelectItem} (h : (selectText braces fuel).parse source = .ok items) :
    ExactList source.toList items := by
  obtain ⟨-, htext, hplaced⟩ := selectText_eq_done h
  apply exactList items [] [] hplaced
  rw [List.nil_append, List.append_nil, htext]

private theorem reads_selectText {braces : Bool} {items : List SelectItem} {fuel : Nat}
    (hne : items ≠ []) (hwell : WellFormedList braces items) (hfuel : depthList items ≤ fuel) :
    (selectText braces (fuel + 1)).parse (render items) = .ok (placeList items 0) := by
  have hnil : Follows listEnds [] := by
    intro c hc
    cases hc
  have hlist := readsList items braces hne hwell fuel hfuel [] hnil 0
  have hall : Reads (selectText braces (fuel + 1)) 0 (listChars items) [] (placeList items 0) :=
    hlist.bind_nil (((reads_atEnd _).labelled _).bind_pure)
  unfold Reads at hall
  rw [List.append_nil] at hall
  unfold Parser.parse Cursor.start render
  rw [String.toList_ofList, hall]

theorem parse_eq_ok {source : String} {settings : SelectSettings} {items : List SelectItem} :
    parse source settings = .ok items ↔
      Nesting.check source settings.maxDepth = .ok () ∧
        (selectText settings.braces (source.length + 1)).parse source = .ok items ∧
          Distinct items := by
  unfold parse parseFault Distinct
  rw [report_eq_ok, ← repeatedList_eq_none]
  by_cases hempty : source.toList = []
  · simp only [hempty, if_true, reduceCtorEq, false_iff]
    rintro ⟨-, hread, -⟩
    have htext := selectText_eq_done hread
    exact listChars_ne_nil htext.1.1 htext.1.2 (htext.2.1.symm.trans hempty)
  · rw [if_neg hempty]
    cases Nesting.check source settings.maxDepth with
    | error fault => simp
    | ok _ =>
        cases hread : (selectText settings.braces (source.length + 1)).parse source with
        | error fault => simp
        | ok read =>
            simp only [Except.ok.injEq, true_and]
            constructor
            · intro h
              split at h <;> cases h
              next hnone => exact ⟨rfl, hnone⟩
            · rintro ⟨rfl, hnone⟩
              rw [hnone]

theorem parse_render {settings : SelectSettings} {items : List SelectItem}
    (h : Writable settings.braces items)
    (hcheck : Nesting.check (render items) settings.maxDepth = .ok ()) :
    parse (render items) settings = .ok (placeList items 0) := by
  have hdistinct : Distinct (placeList items 0) := by
    rw [← distinct_unplacedList, unplaced_placeList, distinct_unplacedList]
    exact h.distinct
  have hfuel : depthList items ≤ (render items).length := by
    rw [render, String.length_ofList]
    exact depthList_le items
  exact parse_eq_ok.mpr ⟨hcheck, reads_selectText h.nonempty h.wellFormed hfuel, hdistinct⟩

/-- Items are read from a text exactly if the text writes them, they stand where they say they do, and
the text does not nest too deep. -/
theorem parse_eq_ok_iff {source : String} {settings : SelectSettings} {items : List SelectItem} :
    parse source settings = .ok items ↔
      Writable settings.braces items ∧ render items = source ∧ placeList items 0 = items ∧
        Nesting.check source settings.maxDepth = .ok () := by
  constructor
  · intro h
    obtain ⟨hcheck, hread, hdistinct⟩ := parse_eq_ok.mp h
    obtain ⟨⟨hne, hwell⟩, htext, hplaced⟩ := selectText_eq_done hread
    refine ⟨⟨hne, hwell, hdistinct⟩, ?_, hplaced, hcheck⟩
    rw [render, ← htext, String.ofList_toList]
  · rintro ⟨hwritable, rfl, hplaced, hcheck⟩
    rw [parse_render hwritable hcheck, hplaced]

/-- Reading and writing are inverse to one another: what is read is written as the text it was read
from, with exact spans, and what can be written is read from its text if that nests no deeper than the
limit, with nothing changed but its spans. -/
theorem parse_inverse_render (settings : SelectSettings) :
    (∀ (source : String) (items : List SelectItem), parse source settings = .ok items →
      render items = source ∧ ExactList source.toList items ∧
        Writable settings.braces items ∧ Nesting.check source settings.maxDepth = .ok ()) ∧
    ∀ items : List SelectItem, Writable settings.braces items →
      unplacedList (placeList items 0) = unplacedList items ∧
        (parse (render items) settings = .ok (placeList items 0) ↔
          Nesting.check (render items) settings.maxDepth = .ok ()) := by
  constructor
  · intro source items h
    obtain ⟨hcheck, hread, hdistinct⟩ := parse_eq_ok.mp h
    obtain ⟨⟨hne, hwell⟩, htext, hplaced⟩ := selectText_eq_done hread
    refine ⟨?_, ?_, ⟨hne, hwell, hdistinct⟩, hcheck⟩
    · rw [render, ← htext, String.ofList_toList]
    · apply exactList items [] []
      · exact hplaced
      · rw [List.nil_append, List.append_nil, htext]
  · intro items hitems
    refine ⟨unplaced_placeList items 0, fun h => (parse_eq_ok.mp h).1, fun hcheck => ?_⟩
    exact parse_render hitems hcheck

/-- `[{a}(x=é(")"))](y=1)[].b,c` -/
private def bracedItems : List SelectItem :=
  let span := Span.point 0
  [.chain [
      .group [.chain [.named ⟨"{a}", span⟩ [⟨⟨"x", span⟩, ⟨"é(\")\")", span⟩⟩]] span]
        [⟨⟨"y", span⟩, ⟨"1", span⟩⟩] span,
      .group [] [] span,
      .named ⟨"b", span⟩ []] span,
    .chain [.named ⟨"c", span⟩ []] span]

theorem parse_inverse_render_braces :
    Writable true bracedItems ∧ render bracedItems = "[{a}(x=é(\")\"))](y=1)[].b,c" ∧
      parse (render bracedItems) ⟨true, .initial, 3⟩ = .ok (placeList bracedItems 0) ∧
        ExactList (render bracedItems).toList (placeList bracedItems 0) := by
  have hwritable : Writable true bracedItems := by
    refine ⟨by simp [bracedItems], ⟨⟨⟨⟨⟨⟨by decide, ?_⟩, trivial⟩, trivial⟩, ?_⟩, ⟨trivial, by simp⟩,
      ⟨by decide, by simp⟩, trivial⟩, ⟨⟨by decide, by simp⟩, trivial⟩, trivial⟩, ?_⟩
    · rw [List.forall_mem_singleton]
      exact ⟨by decide, by decide, by decide⟩
    · rw [List.forall_mem_singleton]
      exact ⟨by decide, by decide, by decide⟩
    · simp [bracedItems, Distinct, allStepsList, allSteps, SelectStep.allStepsList,
        SelectStep.allSteps, SelectStep.parameterNames, SelectStep.parameters]
  have hcheck : Nesting.check (render bracedItems) 3 = .ok () := by decide +kernel
  have hparse := (((parse_inverse_render ⟨true, .initial, 3⟩).2 _ hwritable).2).mpr hcheck
  have hread := (parse_inverse_render ⟨true, .initial, 3⟩).1 _ _ hparse
  exact ⟨hwritable, by decide +kernel, hparse, hread.2.1⟩

end SelectItem

end RequestQuery
