import RequestQuery.Proofs.Select.Relocation

/-!
# The faults of selects

Every error of a select has a place in its text. The spans that paths and nodes carry are those of the
names, groups and parameters they come from, and errors in parameter values are moved to where the
values stand. What can go wrong in a value keeps its code and names the parameter.
-/

namespace RequestQuery

namespace Parser

theorem tracks_parameterText : parameterText.Tracks := by
  apply tracks_of_bare
  · intro cursor a next h
    exact ⟨_, (parameterText_eq_done h).2.2⟩
  · intro cursor stop h
    unfold parameterText at h
    grind

theorem tracks_parameter : parameter.Tracks :=
  (tracks_char _).bind fun _ => (tracks_name.bind fun _ => ((tracks_char _).labelled _).bind fun _ =>
    (tracks_parameterText.spanned.labelled _).bind fun _ => ((tracks_char _).labelled _).bind fun _ =>
      tracks_pure _).commit

theorem tracks_namedStep (braces : Bool) : (namedStep braces).Tracks :=
  (tracks_attributeName braces).bind fun _ => tracks_parameter.many.bind fun _ => tracks_pure _

theorem Tracks.groupStep {inner : Parser (List SelectItem)} (h : inner.Tracks) :
    (groupStep inner).Tracks := by
  have hmembers : (groupMembers inner).Tracks :=
    (tracks_char _).bind fun _ => (h.optional.bind fun _ => ((tracks_char _).labelled _).bind fun _ =>
      tracks_pure _).commit
  exact hmembers.spanned.bind fun _ => tracks_parameter.many.bind fun _ => tracks_pure _

theorem tracks_item {inner : Bool → Parser (List SelectItem)} (h : ∀ braces, (inner braces).Tracks)
    (braces : Bool) : (item inner braces).Tracks := by
  have hnext : (nextStep inner).Tracks :=
    ((tracks_char _).bind fun _ => (tracks_namedStep false).commit).either (h false).groupStep
  have hsteps : (chainSteps inner braces).Tracks :=
    ((tracks_namedStep braces).either (h braces).groupStep).bind fun _ => hnext.many.bind fun _ =>
      tracks_pure _
  exact hsteps.spanned.bind fun _ => tracks_pure _

theorem tracks_itemList (fuel : Nat) : ∀ braces, (itemList fuel braces).Tracks := by
  induction fuel with
  | zero => exact fun _ => tracks_refuse
  | succ fuel ih =>
      intro braces
      exact (tracks_item ih braces).bind fun _ =>
        ((tracks_char _).bind fun _ => (tracks_item ih braces).commit).many.bind fun _ => tracks_pure _

theorem tracks_selectText (braces : Bool) (fuel : Nat) : (selectText braces fuel).Tracks :=
  (tracks_itemList fuel braces).bind fun _ => (tracks_atEnd.labelled _).bind fun _ => tracks_pure _

end Parser

private theorem mem_of_firstRepeated {seen : List String} {parameters : List RawParameter}
    {name : Spanned String} (h : firstRepeated seen parameters = some name) :
    ∃ raw ∈ parameters, raw.name = name := by
  induction parameters generalizing seen with
  | nil => cases h
  | cons raw rest ih =>
      unfold firstRepeated at h
      split at h
      next =>
        cases h
        exact ⟨raw, List.mem_cons_self, rfl⟩
      next =>
        obtain ⟨other, hother, hname⟩ := ih h
        exact ⟨other, List.mem_cons_of_mem _ hother, hname⟩

theorem SelectItem.parseFault_placed (source : String) (settings : SelectSettings) :
    Meets (SelectItem.ExactList source.toList) (Fault.OfSyntax source.toList)
      (SelectItem.parseFault source settings) := by
  unfold SelectItem.parseFault
  split
  next => exact ⟨rfl, [], .zero _⟩
  next =>
    split
    next hcheck => exact Nesting.check_error hcheck
    next =>
      split
      next hread => exact (Parser.tracks_selectText _ _).parse_error hread
      next items hread =>
        have hexact := SelectItem.exactList_of_selectText hread
        split
        next name hrepeated =>
          rw [SelectItem.repeatedList_eq_findSome?] at hrepeated
          obtain ⟨step, hstep, hown⟩ := List.exists_of_findSome?_eq_some hrepeated
          obtain ⟨raw, hraw, rfl⟩ := mem_of_firstRepeated hown
          exact ⟨rfl, _, ((hexact.2 step hstep).parameters hraw).1⟩
        next => exact hexact

/-- The name and the parameters of an attribute stand where their spans say. -/
structure Link.Exact (source : List Char) (link : Link) : Prop where
  name : Slices source link.name.span link.name.value.toList
  parameters : ∀ raw ∈ link.parameters, raw.Exact source

/-- A fault that a select can have once it has been read: of syntax, or one that concerns groups and
parameters. -/
structure Fault.OfSelect (source : List Char) (fault : Fault) : Prop where
  placed : fault.Placed source
  code : fault.cause.isSemantic = true →
    fault.cause.code ∈ [.mergeConflict, .invalidRangeOperator, .emptyGroup, .reservedParameter]

section Paths

variable {source : List Char} (limit : Nat)

abbrev PathsExact (source : List Char) : Except Fault (List LinkPath) → Prop :=
  Meets (fun paths => ∀ path ∈ paths, ∀ link ∈ path, link.Exact source) (Fault.OfSelect source)

private theorem LinkPath.checkLength_exact {path : LinkPath} (h : ∀ link ∈ path, link.Exact source) :
    Meets (fun path => ∀ link ∈ path, link.Exact source) (Fault.OfSelect source)
      (LinkPath.checkLength limit path) := by
  unfold LinkPath.checkLength
  split
  next link hpast =>
    have hlink := h link (List.mem_of_getElem? hpast)
    exact ⟨⟨_, hlink.name⟩, fun h => nomatch h⟩
  next => exact h

private theorem LinkPath.followAll_exact {path : LinkPath}
    (hpath : ∀ link ∈ path, link.Exact source) {tails : List LinkPath}
    (h : ∀ tail ∈ tails, ∀ link ∈ tail, link.Exact source) :
    PathsExact source (LinkPath.followAll limit path tails) := by
  induction tails with
  | nil => simp [LinkPath.followAll, Meets]
  | cons tail rest ih =>
      rw [List.forall_mem_cons] at h
      have hlinks : ∀ link ∈ path ++ tail, link.Exact source :=
        List.forall_mem_append.mpr ⟨hpath, h.1⟩
      rw [LinkPath.followAll]
      refine (LinkPath.checkLength_exact limit hlinks).elim (fun first hfirst => ?_) fun _ h => h
      refine (ih h.2).elim (fun more hmore => ?_) fun _ h => h
      exact List.forall_mem_cons.mpr ⟨hfirst, hmore⟩

private theorem LinkPath.cross_exact {tails : List LinkPath}
    (htails : ∀ tail ∈ tails, ∀ link ∈ tail, link.Exact source) {paths : List LinkPath}
    (h : ∀ path ∈ paths, ∀ link ∈ path, link.Exact source) :
    PathsExact source (LinkPath.cross limit tails paths) := by
  induction paths with
  | nil => simp [LinkPath.cross, Meets]
  | cons path rest ih =>
      rw [List.forall_mem_cons] at h
      rw [LinkPath.cross]
      refine (LinkPath.followAll_exact limit h.1 htails).elim (fun first hfirst => ?_) fun _ h => h
      refine (ih h.2).elim (fun more hmore => ?_) fun _ h => h
      exact List.forall_mem_append.mpr ⟨hfirst, hmore⟩

private theorem LinkPath.addParameters_exact {parameters : List RawParameter}
    (hparameters : ∀ raw ∈ parameters, raw.Exact source) {path : LinkPath}
    (h : ∀ link ∈ path, link.Exact source) :
    ∀ link ∈ LinkPath.addParameters parameters path, link.Exact source := by
  induction path with
  | nil => exact h
  | cons link rest ih =>
      rw [List.forall_mem_cons] at h
      cases rest with
      | nil =>
          rw [LinkPath.addParameters, List.forall_mem_singleton]
          exact ⟨h.1.name, List.forall_mem_append.mpr ⟨h.1.parameters, hparameters⟩⟩
      | cons next rest => exact List.forall_mem_cons.mpr ⟨h.1, ih h.2⟩

mutual
private theorem SelectItem.paths_exact : ∀ item : SelectItem,
    (∀ step ∈ item.allSteps, step.Exact source) → PathsExact source (item.paths limit)
  | .chain steps _, h => SelectStep.walk_exact steps h (by simp)

theorem SelectItem.pathsList_exact : ∀ items : List SelectItem,
    (∀ step ∈ SelectItem.allStepsList items, step.Exact source) →
      PathsExact source (SelectItem.pathsList limit items)
  | [], _ => by simp [SelectItem.pathsList, Meets]
  | item :: rest, h => by
      rw [SelectItem.allStepsList, List.forall_mem_append] at h
      rw [SelectItem.pathsList]
      refine (item.paths_exact h.1).elim (fun first hfirst => ?_) fun _ h => h
      refine (SelectItem.pathsList_exact rest h.2).elim (fun more hmore => ?_) fun _ h => h
      exact List.forall_mem_append.mpr ⟨hfirst, hmore⟩

private theorem SelectStep.paths_exact : ∀ step : SelectStep,
    (∀ s ∈ step.allSteps, s.Exact source) → PathsExact source (step.paths limit)
  | .named name parameters, h => by
      rw [SelectStep.allSteps, List.forall_mem_singleton] at h
      simpa [SelectStep.paths, Meets] using ⟨h.1, h.2⟩
  | .group [] parameters span, h => by
      rw [SelectStep.allSteps, List.forall_mem_cons] at h
      exact ⟨⟨_, h.1.1⟩, fun _ => by simp [Cause.code]⟩
  | .group (member :: members) parameters span, h => by
      rw [SelectStep.allSteps, List.forall_mem_cons] at h
      have hmembers := SelectItem.pathsList_exact (member :: members) h.2
      simp only [SelectStep.paths]
      refine hmembers.elim (fun paths hpaths => ?_) fun _ h => h
      intro path hpath
      obtain ⟨inner, hinner, rfl⟩ := List.mem_map.mp hpath
      exact LinkPath.addParameters_exact h.1.2.2 (hpaths inner hinner)

private theorem SelectStep.walk_exact : ∀ (steps : List SelectStep) {paths : List LinkPath},
    (∀ step ∈ SelectStep.allStepsList steps, step.Exact source) →
      (∀ path ∈ paths, ∀ link ∈ path, link.Exact source) →
        PathsExact source (SelectStep.walk limit steps paths)
  | [], _, _, hpaths => hpaths
  | step :: rest, paths, h, hpaths => by
      rw [SelectStep.allStepsList, List.forall_mem_append] at h
      rw [SelectStep.walk]
      refine (step.paths_exact h.1).elim (fun tails htails => ?_) fun _ h => h
      dsimp only
      refine (LinkPath.cross_exact limit htails hpaths).elim (fun next hnext => ?_) fun _ h => h
      exact SelectStep.walk_exact rest h.2 hnext
end

end Paths

/-- All errors that merging an attribute can end in are `bad`: those in the values of its parameters, of
parameters given again with another value, and of attributes that do not merge. -/
structure Link.ErrorsMeet (settings : SelectSettings) (source : String) (bad : QueryError → Prop)
    (link : Link) : Prop where
  conflict : ∀ parameter path,
    bad (Fault.toError ⟨.conflict parameter path, link.name.span⟩ source)
  read : ∀ raw ∈ link.parameters, Meets (fun _ => True) bad (raw.read settings source)
  repeated : ∀ raw ∈ link.parameters, ∀ parameter path,
    bad (Fault.toError ⟨.conflict parameter path, raw.name.span⟩ source)

section Errors

variable {settings : SelectSettings} {source : String} {bad : QueryError → Prop}

private theorem RawParameter.meets_readAll (path : List String) {parameters : List RawParameter}
    (hread : ∀ raw ∈ parameters, Meets (fun _ => True) bad (raw.read settings source))
    (hrepeated : ∀ raw ∈ parameters, ∀ parameter path,
      bad (Fault.toError ⟨.conflict parameter path, raw.name.span⟩ source)) (table : Parameters) :
    Meets (fun _ => True) bad (RawParameter.readAll settings source path parameters table) := by
  induction parameters generalizing table with
  | nil => trivial
  | cons raw rest ih =>
      rw [List.forall_mem_cons] at hread hrepeated
      unfold RawParameter.readAll
      refine hread.1.elim (fun value _ => ?_) fun _ h => h
      dsimp only
      split
      next => exact ih hread.2 hrepeated.2 _
      next =>
        split
        next => exact ih hread.2 hrepeated.2 _
        next => exact hrepeated.1 _ _

private theorem SelectTree.meets_meet (tree : SelectTree) (path : List String) {link : Link}
    (h : link.ErrorsMeet settings source bad) :
    Meets (fun _ => True) bad (SelectTree.meet settings source tree path link) := by
  unfold SelectTree.meet Link.toNode
  refine (RawParameter.meets_readAll path h.read h.repeated []).elim (fun table _ => ?_) fun _ h => h
  dsimp only
  split
  next => trivial
  next =>
    split
    next => trivial
    next => exact h.conflict _ _

private theorem SelectTree.meets_insertPath {path : LinkPath}
    (h : ∀ link ∈ path, link.ErrorsMeet settings source bad) (above : List String)
    (tree : SelectTree) :
    Meets (fun _ => True) bad (SelectTree.insertPath settings source above path tree) := by
  induction path generalizing above tree with
  | nil => trivial
  | cons link rest ih =>
      rw [List.forall_mem_cons] at h
      have hmeet := SelectTree.meets_meet tree (above ++ [link.name.value]) h.1
      rw [SelectTree.insertPath]
      refine hmeet.elim (fun node _ => ?_) fun _ h => h
      cases rest with
      | nil => trivial
      | cons next rest =>
          have hbelow := ih h.2 (above ++ [link.name.value]) node.childTable
          dsimp only
          exact hbelow.elim (fun _ _ => trivial) fun _ h => h

theorem SelectTree.meets_insertPaths {paths : List LinkPath}
    (h : ∀ path ∈ paths, ∀ link ∈ path, link.ErrorsMeet settings source bad) (tree : SelectTree) :
    Meets (fun _ => True) bad (SelectTree.insertPaths settings source paths tree) := by
  induction paths generalizing tree with
  | nil => trivial
  | cons path rest ih =>
      rw [List.forall_mem_cons] at h
      rw [SelectTree.insertPaths]
      refine (SelectTree.meets_insertPath h.1 [] tree).elim (fun tree _ => ?_) fun _ h => h
      exact ih h.2 tree

end Errors

/-- The codes of meaning that a select can have. Those of single values come with a note that names the
parameter. -/
def Finding.CodedForSelect (finding : Finding) : Prop :=
  finding.code ∈ [.mergeConflict, .invalidRangeOperator, .emptyGroup, .reservedParameter] ∨
  (finding.code ∈ [.invalidType, .valueOutOfRange] ∧
    finding.context ∈ [some "in parameter `limit`", some "in parameter `page`"]) ∨
  (finding.code = .invalidOrder ∧ finding.context = some "in parameter `order`")

def QueryError.OfSelect (source : String) (error : QueryError) : Prop :=
  ∃ finding : Finding, finding.Placed source ∧
    ((error = .syntactic finding ∧ 1 ≤ finding.code.number ∧ finding.code.number ≤ 7) ∨
      (error = .semantic finding ∧ finding.CodedForSelect))

theorem Fault.OfSelect.toError {source : String} {fault : Fault} (h : fault.OfSelect source.toList) :
    QueryError.OfSelect source (fault.toError source) := by
  refine ⟨_, Finding.placed_of_fault h.placed, ?_⟩
  rw [Fault.toError_eq]
  cases hsemantic : fault.cause.isSemantic with
  | false => exact .inl ⟨rfl, Cause.code_of_syntax hsemantic⟩
  | true => exact .inr ⟨rfl, .inl (h.code hsemantic)⟩

theorem Fault.OfSyntax.ofSelect {source : List Char} {fault : Fault} (h : fault.OfSyntax source) :
    fault.OfSelect source := by
  refine ⟨h.placed, fun hsemantic => ?_⟩
  rw [h.syntactic] at hsemantic
  cases hsemantic

section Merging

variable (settings : SelectSettings) {source : String}

/-- An outcome whose errors are those of a select. -/
private abbrev Reports (source : String) {α : Type} : Except QueryError α → Prop :=
  Meets (fun _ => True) (QueryError.OfSelect source)

private theorem RawParameter.relocate_ofSelect {raw : RawParameter} (h : raw.Exact source.toList)
    {error : QueryError}
    (herror : ParameterValue.parse settings.filter raw.name.value raw.value.value = .error error) :
    QueryError.OfSelect source (raw.relocate source error) := by
  have hmoved : ∀ {finding : Finding}, finding.Placed raw.value.value → Finding.Placed source
      { finding.reanchor raw.value.span.start source with context := some raw.note } := by
    intro finding hfinding
    have hreanchor := hfinding.reanchor h.2
    exact ⟨hreanchor.expression, hreanchor.part⟩
  -- Errors of a filter are placed in it and move; those of single values get the place of the value.
  rcases ParameterValue.parse_error herror with ⟨-, hfilter⟩ | ⟨code, message, rfl, hcode⟩
  · rcases Filter.parse_error hfilter with ⟨fault, hfault, rfl⟩ | ⟨misranged, hmisranged, rfl⟩
    · exact ⟨_, hmoved (Finding.placed_of_fault hfault.placed),
        .inl ⟨rfl, Cause.code_of_syntax hfault.syntactic⟩⟩
    · refine ⟨_, hmoved (Finding.placed_of_fault ⟨_, hmisranged.place⟩), .inr ⟨rfl, .inl ?_⟩⟩
      exact List.mem_cons_of_mem _ List.mem_cons_self
  · refine ⟨_, ⟨rfl, _, _, h.2, rfl⟩, .inr ⟨rfl, .inr ?_⟩⟩
    rcases hcode with ⟨hname, rfl⟩ | ⟨hname, hcode⟩
    · exact .inr ⟨rfl, by rw [hname]; rfl⟩
    · refine .inl ⟨by simpa using hcode, ?_⟩
      change some ("in parameter `" ++ raw.name.value ++ "`") ∈ _
      rcases hname with hname | hname
      · rw [hname]
        exact List.mem_cons_self
      · rw [hname]
        exact List.mem_cons_of_mem _ List.mem_cons_self

private theorem RawParameter.read_reports {raw : RawParameter} (h : raw.Exact source.toList) :
    Reports source (raw.read settings source) := by
  cases hread : raw.read settings source with
  | ok value => trivial
  | error error =>
      cases hparse : ParameterValue.parse settings.filter raw.name.value raw.value.value with
      | error inner =>
          rw [RawParameter.read_of_parse_error hparse] at hread
          cases hread
          exact RawParameter.relocate_ofSelect settings h hparse
      | ok value =>
          simp only [RawParameter.read, hparse] at hread
          split at hread <;> cases hread
          exact Fault.OfSelect.toError ⟨⟨_, h.1⟩, fun _ => by simp [Cause.code]⟩

private theorem conflict_ofSelect {name : Spanned String} {text : List Char}
    (h : Slices source.toList name.span text) (parameter : String) (path : List String) :
    QueryError.OfSelect source (Fault.toError ⟨.conflict parameter path, name.span⟩ source) :=
  Fault.OfSelect.toError ⟨⟨_, h⟩, fun _ => List.mem_cons_self⟩

private theorem Link.Exact.errorsMeet {link : Link} (h : link.Exact source.toList) :
    link.ErrorsMeet settings source (QueryError.OfSelect source) where
  conflict := conflict_ofSelect h.name
  read := fun raw hraw => RawParameter.read_reports settings (h.parameters raw hraw)
  repeated := fun raw hraw => conflict_ofSelect (h.parameters raw hraw).1

private theorem SelectTree.insertItems_reports {items : List SelectItem}
    (h : ∀ step ∈ SelectItem.allStepsList items, step.Exact source.toList) (tree : SelectTree) :
    Reports source (SelectTree.insertItems settings source items tree) := by
  induction items generalizing tree with
  | nil => trivial
  | cons item rest ih =>
      rw [SelectItem.allStepsList, List.forall_mem_append] at h
      have hitem := SelectItem.paths_exact settings.maxDepth item h.1
      rw [SelectTree.insertItems]
      refine hitem.elim (fun paths hpaths => ?_) fun fault hfault => hfault.toError
      dsimp only
      have hlinks : ∀ path ∈ paths, ∀ link ∈ path,
          link.ErrorsMeet settings source (QueryError.OfSelect source) :=
        fun path hpath link hlink => (hpaths path hpath link hlink).errorsMeet settings
      refine (SelectTree.meets_insertPaths hlinks tree).elim (fun tree _ => ?_) fun _ h => h
      exact ih h.2 tree

end Merging

theorem SelectTree.parse_error {source : String} {settings : SelectSettings} {error : QueryError}
    (h : SelectTree.parse source settings = .error error) : QueryError.OfSelect source error := by
  have hitems := SelectItem.parseFault_placed source settings
  unfold SelectTree.parse SelectItem.parse at h
  cases hread : SelectItem.parseFault source settings with
  | error fault =>
      rw [hread] at hitems h
      cases h
      exact hitems.ofSelect.toError
  | ok items =>
      rw [hread] at hitems h
      have hmerge := SelectTree.insertItems_reports settings hitems.2 []
      change SelectTree.insertItems settings source items [] = _ at h
      rwa [h] at hmerge

/-- What is refused is refused for its syntax or its meaning, and at a place inside the text. The only
fault of meaning in a filter is a range, and the place is the token in front of it. Those of a select
also concern groups, names, values that do not merge and single values, the last with a note. -/
theorem QueryError.located_of_parse (source : String) :
    (∀ (settings : FilterSettings) (error : QueryError),
      Filter.parse source settings = .error error →
      ∃ finding : Finding, finding.Located source ∧
        ((error = .syntactic finding ∧ 1 ≤ finding.code.number ∧ finding.code.number ≤ 7) ∨
          (error = .semantic finding ∧ finding.code = .invalidRangeOperator ∧
            ∃ raw location, Filter.Misranged settings source raw ∧
              finding.location = some location ∧ location.span = raw.token.span ∧
              Slices source.toList location.span raw.token.value.toList))) ∧
    ∀ (settings : SelectSettings) (error : QueryError),
      SelectTree.parse source settings = .error error →
      ∃ finding : Finding, finding.Located source ∧
        ((error = .syntactic finding ∧ 1 ≤ finding.code.number ∧ finding.code.number ≤ 7) ∨
          (error = .semantic finding ∧ finding.CodedForSelect)) := by
  constructor
  · intro settings error herror
    rcases Filter.parse_error herror with ⟨fault, hfault, rfl⟩ | ⟨raw, hraw, rfl⟩
    · exact ⟨_, (Finding.placed_of_fault hfault.placed).located,
        .inl ⟨rfl, Cause.code_of_syntax hfault.syntactic⟩⟩
    · have hspan := Location.span_of_slices hraw.place
      refine ⟨_, (Finding.placed_of_fault ⟨_, hraw.place⟩).located, .inr ⟨rfl, rfl, raw, _, hraw, rfl,
        hspan, ?_⟩⟩
      rw [hspan]
      exact hraw.place
  · intro settings error herror
    obtain ⟨finding, hplaced, hclass⟩ := SelectTree.parse_error herror
    exact ⟨finding, hplaced.located, hclass⟩

/-- A range behind `<`, in the second line. -/
private def rangeFinding : Finding where
  code := .invalidRangeOperator
  message := "range values cannot be used with `<`"
  expression := "a=\"é\" OR\nb<1..2"
  location := some ⟨2, 2, 11, 1⟩
  context := none

private def limitFinding : Finding where
  code := .invalidType
  message := "limit must be an integer or \"unlimited\""
  expression := "a(search=é)(limit=é)"
  location := some ⟨1, 19, 19, 2⟩
  context := some "in parameter `limit`"

theorem QueryError.located_of_parse_range_limit :
    Filter.parse "a=\"é\" OR\nb<1..2" .initial = .error (.semantic rangeFinding) ∧
    rangeFinding.Located "a=\"é\" OR\nb<1..2" ∧
    (∃ raw, Filter.Misranged .initial "a=\"é\" OR\nb<1..2" raw ∧ raw.token.span = ⟨11, 12⟩) ∧
    SelectTree.parse "a(search=é)(limit=é)" ⟨false, .initial, 1⟩ = .error (.semantic limitFinding) ∧
    limitFinding.Located "a(search=é)(limit=é)" ∧ limitFinding.CodedForSelect := by
  have hrange : Filter.parse "a=\"é\" OR\nb<1..2" .initial = .error (.semantic rangeFinding) := by
    decide +kernel
  have hlimit : SelectTree.parse "a(search=é)(limit=é)" ⟨false, .initial, 1⟩ =
      .error (.semantic limitFinding) := by
    rw [← Formula.refusal_eq_some]
    decide +kernel
  obtain ⟨_, hlocated, ⟨herror, -⟩ | ⟨herror, -, raw, location, hraw, hplace, hspan, -⟩⟩ :=
    (QueryError.located_of_parse _).1 _ _ hrange
  · cases herror
  · cases herror
    cases hplace
    obtain ⟨_, hlimited, ⟨herror, -⟩ | ⟨herror, hcode⟩⟩ :=
      (QueryError.located_of_parse _).2 _ _ hlimit
    · cases herror
    · cases herror
      exact ⟨hrange, hlocated, ⟨raw, hraw, hspan.symm⟩, hlimit, hlimited, hcode⟩

end RequestQuery
