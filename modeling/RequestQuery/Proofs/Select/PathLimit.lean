import RequestQuery.Proofs.Filter.NestingLimit
import RequestQuery.Proofs.Select.Faults
import RequestQuery.Proofs.Select.ShortHands

/-!
# Where a path gets too long

The limit on paths is checked wherever a chain is followed, and a chain inside a group is followed on
its own, before what leads to it. So the attribute that is reported is the first one past the limit on
the chain where this is noticed. It is the first one past the limit from the root as well if no chain
below an attribute is too long on its own.
-/

namespace RequestQuery

def LinkPath.places (path : LinkPath) : List (Spanned String) := path.map Link.name

namespace LinkPath

theorem length_places (path : LinkPath) : path.places.length = path.length := List.length_map _

theorem places_append (front back : LinkPath) :
    LinkPath.places (front ++ back) = front.places ++ back.places := List.map_append

theorem places_addParameters (parameters : List RawParameter) (path : LinkPath) :
    LinkPath.places (LinkPath.addParameters parameters path) = path.places := by
  fun_induction LinkPath.addParameters parameters path with
  | case1 => rfl
  | case2 link => rfl
  | case3 link rest _ ih => exact congrArg (link.name :: ·) ih

variable {limit : Nat} {fault : Fault}

theorem checkLength_error {path : LinkPath} (h : checkLength limit path = .error fault) :
    ∃ name, path.places[limit]? = some name ∧ fault = ⟨.pathTooLong limit, name.span⟩ := by
  unfold checkLength at h
  split at h <;> cases h
  next link hlink =>
    refine ⟨link.name, ?_, rfl⟩
    rw [places, List.getElem?_map, hlink, Option.map_some]

theorem followAll_error {path : LinkPath} {tails : List LinkPath}
    (h : followAll limit path tails = .error fault) :
    ∃ tail ∈ tails, checkLength limit (path ++ tail) = .error fault := by
  induction tails with
  | nil => cases h
  | cons tail rest ih =>
      rw [followAll] at h
      split at h
      next hcheck =>
        cases h
        exact ⟨tail, List.mem_cons_self, hcheck⟩
      next =>
        split at h
        next hrest =>
          cases h
          obtain ⟨other, hother, hcheck⟩ := ih hrest
          exact ⟨other, List.mem_cons_of_mem _ hother, hcheck⟩
        next => cases h

theorem cross_error {paths tails : List LinkPath} (h : cross limit tails paths = .error fault) :
    ∃ path ∈ joinAll paths tails, checkLength limit path = .error fault := by
  induction paths with
  | nil => cases h
  | cons path rest ih =>
      rw [cross] at h
      split at h
      next hfollow =>
        cases h
        obtain ⟨tail, htail, hcheck⟩ := followAll_error hfollow
        exact ⟨_, mem_joinAll.mpr ⟨path, List.mem_cons_self, tail, htail, rfl⟩, hcheck⟩
      next =>
        split at h
        next hrest =>
          cases h
          obtain ⟨long, hlong, hcheck⟩ := ih hrest
          obtain ⟨front, hfront, tail, htail, rfl⟩ := mem_joinAll.mp hlong
          exact ⟨_, mem_joinAll.mpr ⟨front, List.mem_cons_of_mem _ hfront, tail, htail, rfl⟩, hcheck⟩
        next => cases h

end LinkPath

/-- The attributes `above` lead from the start of a chain to that of a chain inside it: to itself, or to
a member of one of its groups and on from there. -/
inductive SelectStep.Leads : List SelectStep → LinkPath → List SelectStep → Prop where
  | here (steps : List SelectStep) : Leads steps [] steps
  | inside {steps before after inner : List SelectStep} {members : List SelectItem}
      {parameters : List RawParameter} {span : Span} {item : SelectItem} {path above : LinkPath}
      (split : steps = before ++ .group members parameters span :: after)
      (path_mem : path ∈ SelectStep.product before) (item_mem : item ∈ members)
      (leads : Leads item.steps above inner) : Leads steps (path ++ above) inner

namespace SelectItem

theorem mem_allStepsList {items : List SelectItem} {item : SelectItem} (h : item ∈ items)
    {step : SelectStep} (hstep : step ∈ SelectStep.allStepsList item.steps) :
    step ∈ allStepsList items := by
  induction items with
  | nil => cases h
  | cons first rest ih =>
      rw [allStepsList, List.mem_append]
      rcases List.mem_cons.mp h with rfl | hrest
      · cases item
        exact .inl hstep
      · exact .inr (ih hrest)

theorem mem_describedList {items : List SelectItem} {item : SelectItem} (h : item ∈ items)
    {path : LinkPath} (hpath : path ∈ SelectStep.product item.steps) : path ∈ describedList items := by
  induction items with
  | nil => cases h
  | cons first rest ih =>
      rw [describedList, List.mem_append]
      rcases List.mem_cons.mp h with rfl | hrest
      · cases item
        exact .inl hpath
      · exact .inr (ih hrest)

end SelectItem

namespace SelectStep

theorem Leads.subset {steps inner : List SelectStep} {above : LinkPath}
    (h : Leads steps above inner) : allStepsList inner ⊆ allStepsList steps := by
  induction h with
  | here => exact fun _ hstep => hstep
  | inside split _ item_mem _ ih =>
      intro step hstep
      have hmembers := SelectItem.mem_allStepsList item_mem (ih hstep)
      subst split
      rw [allStepsList_append, allStepsList, allSteps]
      simp [hmembers]

/-- What a chain inside describes goes on, behind what leads there, as part of what the outer chain
describes. -/
theorem Leads.exists_whole {steps inner : List SelectStep} {above path : LinkPath}
    (h : Leads steps above inner) (hfilled : ∀ step ∈ allStepsList steps, step.isEmptyGroup = false)
    (hpath : path ∈ product inner) :
    ∃ whole ∈ product steps, LinkPath.places (above ++ path) <+: whole.places := by
  induction h with
  | here => exact ⟨path, hpath, List.prefix_rfl⟩
  | @inside steps before after inner members parameters span item front above split front_mem item_mem
      _ ih =>
      subst split
      rw [allStepsList_append, allStepsList, List.forall_mem_append, List.forall_mem_append,
        allSteps, List.forall_mem_cons] at hfilled
      obtain ⟨-, ⟨-, hmembers⟩, hafter⟩ := hfilled
      have hitem : ∀ step ∈ allStepsList item.steps, step.isEmptyGroup = false :=
        fun step hstep => hmembers step (SelectItem.mem_allStepsList item_mem hstep)
      obtain ⟨middle, hmiddle, hprefix⟩ := ih hitem hpath
      obtain ⟨tail, htail⟩ := List.exists_mem_of_ne_nil _ (product_ne_nil after hafter)
      have hgroup : LinkPath.addParameters parameters middle ∈
          (group members parameters span).described :=
        List.mem_map_of_mem (SelectItem.mem_describedList item_mem hmiddle)
      refine ⟨front ++ (LinkPath.addParameters parameters middle ++ tail), ?_, ?_⟩
      · rw [product_append, product]
        exact LinkPath.mem_joinAll.mpr ⟨front, front_mem, _,
          LinkPath.mem_joinAll.mpr ⟨_, hgroup, tail, htail, rfl⟩, rfl⟩
      · -- The group changes the parameters of the path through it, but no names.
        have hmoved : LinkPath.places (above ++ path) <+:
            LinkPath.places (LinkPath.addParameters parameters middle ++ tail) := by
          rw [LinkPath.places_append (LinkPath.addParameters parameters middle),
            LinkPath.places_addParameters]
          exact hprefix.trans (List.prefix_append _ _)
        rw [List.append_assoc, LinkPath.places_append front, LinkPath.places_append front]
        exact (List.prefix_append_right_inj _).mpr hmoved

theorem product_concat (before : List SelectStep) (step : SelectStep) :
    product (before ++ [step]) = LinkPath.joinAll (product before) step.described := by
  rw [product_append, product, product, LinkPath.joinAll_nil_right]

/-- `name` is the first attribute past the limit on the chain that `above` leads to, as far as `before`
goes. -/
def Overruns (limit : Nat) (steps : List SelectStep) (above : LinkPath) (name : Spanned String) :
    Prop :=
  ∃ before after front, Leads steps above (before ++ after) ∧ front ∈ product before ∧
    front.places[limit]? = some name

/-- A path of a chain inside `steps` is too long, and that is the fault. -/
def TooLong (limit : Nat) (steps : List SelectStep) (fault : Fault) : Prop :=
  ∃ above name, Overruns limit steps above name ∧ fault = ⟨.pathTooLong limit, name.span⟩

variable {limit : Nat} {fault : Fault}

/-- A chain that is too long as a member of a group is so in the chain with the group. -/
theorem TooLong.of_member {step : SelectStep} {item : SelectItem} (hitem : item ∈ step.members)
    (h : TooLong limit item.steps fault) {before : List SelectStep} (hbefore : product before ≠ [])
    (after : List SelectStep) : TooLong limit (before ++ step :: after) fault := by
  obtain ⟨path, hpath⟩ := List.exists_mem_of_ne_nil _ hbefore
  obtain ⟨above, name, ⟨front, rest, reached, hleads, hreached, hname⟩, hfault⟩ := h
  cases step with
  | named => cases hitem
  | group members parameters span =>
      exact ⟨path ++ above, name,
        ⟨front, rest, reached, .inside rfl hpath hitem hleads, hreached, hname⟩, hfault⟩

theorem TooLong.of_cross {before : List SelectStep} {step : SelectStep} (after : List SelectStep)
    (h : LinkPath.cross limit step.described (product before) = .error fault) :
    TooLong limit (before ++ step :: after) fault := by
  obtain ⟨path, hpath, hcheck⟩ := LinkPath.cross_error h
  obtain ⟨name, hname, hfault⟩ := LinkPath.checkLength_error hcheck
  refine ⟨[], name, ⟨before ++ [step], after, path, ?_, ?_, hname⟩, hfault⟩
  · rw [List.append_assoc, List.singleton_append]
    exact .here _
  · rwa [product_concat]

end SelectStep

section Walks

variable {limit : Nat} {fault : Fault}

mutual
theorem SelectItem.paths_error : ∀ item : SelectItem, item.paths limit = .error fault →
    fault.cause = .emptyGroup ∨ SelectStep.TooLong limit item.steps fault
  | .chain steps _, h => SelectStep.walk_error steps [] (by simp [SelectStep.product]) h

theorem SelectItem.pathsList_error : ∀ items : List SelectItem,
    SelectItem.pathsList limit items = .error fault →
      fault.cause = .emptyGroup ∨ ∃ item ∈ items, SelectStep.TooLong limit item.steps fault
  | [], h => by cases h
  | item :: rest, h => by
      rw [SelectItem.pathsList] at h
      split at h
      next hfirst =>
        cases h
        exact (item.paths_error hfirst).imp_right fun hlong => ⟨item, List.mem_cons_self, hlong⟩
      next =>
        split at h <;> cases h
        next hrest =>
          refine (SelectItem.pathsList_error rest hrest).imp_right ?_
          rintro ⟨other, hother, hlong⟩
          exact ⟨other, List.mem_cons_of_mem _ hother, hlong⟩

theorem SelectStep.paths_error : ∀ step : SelectStep, step.paths limit = .error fault →
    fault.cause = .emptyGroup ∨ ∃ item ∈ step.members, SelectStep.TooLong limit item.steps fault
  | .named name parameters, h => by cases h
  | .group [] parameters span, h => by
      cases h
      exact .inl rfl
  | .group (member :: members) parameters span, h => by
      rw [SelectStep.paths] at h
      split at h <;> cases h
      next hmembers => exact SelectItem.pathsList_error (member :: members) hmembers

/-- The paths that are followed are those of the steps `before`. -/
theorem SelectStep.walk_error : ∀ rest before : List SelectStep, SelectStep.product before ≠ [] →
    SelectStep.walk limit rest (SelectStep.product before) = .error fault →
      fault.cause = .emptyGroup ∨ SelectStep.TooLong limit (before ++ rest) fault
  | [], _, _, h => by cases h
  | step :: rest, before, hne, h => by
      rw [SelectStep.walk] at h
      split at h
      next hstep =>
        cases h
        -- The members are followed on their own, so their fault is placed in the whole chain here.
        refine (step.paths_error hstep).imp_right ?_
        rintro ⟨item, hitem, hlong⟩
        exact hlong.of_member hitem hne rest
      next tails htails =>
        obtain ⟨hgroups, rfl⟩ := step.paths_eq_ok tails htails
        split at h
        next hcross =>
          cases h
          exact .inr (.of_cross rest hcross)
        next crossed hcrossed =>
          obtain ⟨-, rfl⟩ := LinkPath.cross_eq_ok.mp hcrossed
          have hne' := LinkPath.joinAll_ne_nil hne (step.described_ne_nil hgroups)
          rw [← SelectStep.product_concat] at h hne'
          have hwalk := SelectStep.walk_error rest (before ++ [step]) hne' h
          rwa [List.append_assoc, List.singleton_append] at hwalk
end

end Walks

/-- The error says that a path is longer than the limit. -/
def QueryError.OfPathLimit (limit : Nat) (error : QueryError) : Prop :=
  error.code = .nestingTooDeep ∧ error.message = (Cause.pathTooLong limit).message

theorem Filter.message_of_nestingTooDeep {settings : FilterSettings} {source : String}
    {error : QueryError} (h : Filter.parse source settings = .error error)
    (hcode : error.code = .nestingTooDeep) :
    error.message = (Cause.nestedTooDeep settings.maxDepth).message := by
  cases hcheck : Nesting.check source settings.maxDepth with
  | ok => exact absurd hcode (Filter.code_of_parse hcheck h)
  | error fault =>
      have hfault : fault.cause = .nestedTooDeep settings.maxDepth := by
        unfold Nesting.check at hcheck
        split at hcheck <;> cases hcheck
        rfl
      unfold Filter.parse Filter.parseTree Filter.treeFault at h
      rw [hcheck] at h
      split at h
      next htree => split at htree <;> cases htree
      next htree =>
        split at htree
        next =>
          cases h
          cases htree
          cases hcode
        next =>
          cases h
          cases htree
          rw [Fault.toError_eq, hfault]
          exact congrArg Cause.message hfault

private theorem head?_append_of {front : String} {c : Char} (h : front.toList.head? = some c)
    (rest : String) : (front ++ rest).toList.head? = some c := by
  rw [String.toList_append, List.head?_append, h, Option.some_or]

private theorem Cause.message_nestedTooDeep_ne (limit limit' : Nat) :
    (Cause.nestedTooDeep limit).message ≠ (Cause.pathTooLong limit').message := by
  have hleft : (Cause.nestedTooDeep limit).message.toList.head? = some 'e' :=
    head?_append_of (head?_append_of (by decide) _) _
  have hright : (Cause.pathTooLong limit').message.toList.head? = some 's' :=
    head?_append_of (head?_append_of (by decide) _) _
  intro h
  rw [h, hright] at hleft
  cases hleft

section Merging

variable (limit : Nat) (settings : SelectSettings) (source : String)

/-- An outcome whose error, if it is one, is not that of a path. -/
private abbrev Apart {α : Type} : Except QueryError α → Prop :=
  Meets (fun _ => True) fun error => ¬ error.OfPathLimit limit

private theorem RawParameter.relocate_apart {raw : RawParameter} {error : QueryError}
    (h : ParameterValue.parse settings.filter raw.name.value raw.value.value = .error error) :
    ¬ (raw.relocate source error).OfPathLimit limit := by
  rintro ⟨hcode, hmessage⟩
  rcases ParameterValue.parse_error h with ⟨-, hfilter⟩ | ⟨code, message, rfl, hcodes⟩
  · have hmoved : (raw.relocate source error).code = error.code ∧
        (raw.relocate source error).message = error.message := by
      obtain ⟨finding, -, rfl | rfl⟩ := Filter.placed_of_parse_error hfilter
      · exact ⟨rfl, rfl⟩
      · exact ⟨rfl, rfl⟩
    rw [hmoved.1] at hcode
    rw [hmoved.2, Filter.message_of_nestingTooDeep hfilter hcode] at hmessage
    exact Cause.message_nestedTooDeep_ne _ _ hmessage
  · have hcode : code = .nestingTooDeep := hcode
    subst hcode
    simp [ErrorCode.nestingTooDeep, ErrorCode.invalidOrder, ErrorCode.invalidType,
      ErrorCode.valueOutOfRange] at hcodes

private theorem RawParameter.read_apart (raw : RawParameter) :
    Apart limit (raw.read settings source) := by
  cases hread : raw.read settings source with
  | ok value => trivial
  | error error =>
      unfold RawParameter.read at hread
      split at hread
      next =>
        cases hread
        exact fun h => nomatch h.1
      next =>
        split at hread <;> cases hread
        next hparse => exact RawParameter.relocate_apart limit settings source hparse

theorem SelectTree.insertPaths_apart (paths : List LinkPath) (tree : SelectTree) :
    Apart limit (SelectTree.insertPaths settings source paths tree) := by
  apply SelectTree.meets_insertPaths
  intro path _ link _
  have hconflict : ∀ (span : Span) (parameter : String) (path : List String),
      ¬ (Fault.toError ⟨.conflict parameter path, span⟩ source).OfPathLimit limit :=
    fun _ _ _ h => nomatch h.1
  exact ⟨hconflict _, fun raw _ => RawParameter.read_apart limit settings source raw,
    fun _ _ => hconflict _⟩

end Merging

namespace SelectItem

/-- No chain below an attribute, which is one inside a group, has a path longer than the limit. -/
def ShortBelow (limit : Nat) (item : SelectItem) : Prop :=
  ∀ above inner, SelectStep.Leads item.steps above inner → above ≠ [] →
    ∀ path ∈ SelectStep.product inner, path.length ≤ limit

variable {limit : Nat} {item : SelectItem}

theorem filled_singleton : Filled [item] ↔
    ∀ step ∈ SelectStep.allStepsList item.steps, step.isEmptyGroup = false := by
  cases item
  simp [Filled, allStepsList, allSteps, steps]

theorem exists_whole (hfilled : Filled [item]) {above path : LinkPath} {inner : List SelectStep}
    (h : SelectStep.Leads item.steps above inner) (hpath : path ∈ SelectStep.product inner) :
    ∃ whole ∈ item.described, LinkPath.places (above ++ path) <+: whole.places := by
  have hwhole := h.exists_whole (filled_singleton.mp hfilled) hpath
  cases item
  exact hwhole

theorem shortBelow_of_length (hfilled : Filled [item])
    (h : ∀ path ∈ item.described, path.length ≤ limit + 1) : ShortBelow limit item := by
  intro above inner hleads hne path hpath
  obtain ⟨whole, hwhole, hprefix⟩ := exists_whole hfilled hleads hpath
  have hle := hprefix.length_le
  have habove : 0 < above.length := List.length_pos_of_ne_nil hne
  have hlong := h whole hwhole
  rw [LinkPath.length_places, LinkPath.length_places, List.length_append] at hle
  omega

theorem exists_tail (hfilled : Filled [item]) {above : LinkPath} {before after : List SelectStep}
    (h : SelectStep.Leads item.steps above (before ++ after)) {front : LinkPath}
    (hfront : front ∈ SelectStep.product before) :
    ∃ tail, front ++ tail ∈ SelectStep.product (before ++ after) := by
  have hafter : ∀ step ∈ SelectStep.allStepsList after, step.isEmptyGroup = false := by
    intro step hstep
    apply filled_singleton.mp hfilled
    apply h.subset
    rw [SelectStep.allStepsList_append]
    exact List.mem_append_right _ hstep
  obtain ⟨tail, htail⟩ := List.exists_mem_of_ne_nil _ (SelectStep.product_ne_nil after hafter)
  refine ⟨tail, ?_⟩
  rw [SelectStep.product_append]
  exact LinkPath.mem_joinAll.mpr ⟨front, hfront, tail, htail, rfl⟩

/-- The first attribute past the limit on a chain stands on a path of the item, behind what leads to
the chain. -/
theorem exists_place (hfilled : Filled [item]) {above : LinkPath} {name : Spanned String}
    (h : SelectStep.Overruns limit item.steps above name) :
    ∃ path ∈ item.described, path.places[above.length + limit]? = some name ∧
      (item.ShortBelow limit → path.places[limit]? = some name) := by
  obtain ⟨before, after, front, hleads, hfront, hname⟩ := h
  obtain ⟨tail, htail⟩ := exists_tail hfilled hleads hfront
  obtain ⟨whole, hwhole, rest, hrest⟩ := exists_whole hfilled hleads htail
  have hlong : limit < front.length := by
    rw [← LinkPath.length_places]
    exact (List.getElem?_eq_some_iff.mp hname).1
  have hplace : whole.places[above.length + limit]? = some name := by
    rw [← hrest, LinkPath.places_append, LinkPath.places_append, List.append_assoc,
      List.getElem?_append_right (by rw [LinkPath.length_places]; omega), LinkPath.length_places,
      Nat.add_sub_cancel_left, List.append_assoc,
      List.getElem?_append_left (by rw [LinkPath.length_places]; omega)]
    exact hname
  refine ⟨whole, hwhole, hplace, fun hshort => ?_⟩
  have habove : above = [] := by
    by_contra hne
    have hle := hshort above _ hleads hne _ htail
    rw [List.length_append] at hle
    omega
  rw [habove, List.length_nil, Nat.zero_add] at hplace
  exact hplace

theorem writable_of_bare {braces : Bool} {items : List SelectItem} (hne : items ≠ [])
    (hwell : WellFormedList braces items)
    (hbare : ∀ step ∈ allStepsList items, step.parameters = []) : Writable braces items := by
  refine ⟨hne, hwell, fun step hstep => ?_⟩
  rw [SelectStep.parameterNames, hbare step hstep]
  exact List.nodup_nil

end SelectItem

namespace SelectTree

variable {settings : SelectSettings} {source : String}

theorem exists_overrun {items : List SelectItem} {tree : SelectTree} {error : QueryError}
    (h : insertItems settings source items tree = .error error)
    (hlimit : error.OfPathLimit settings.maxDepth) :
    ∃ item ∈ items, ∃ above name, SelectStep.Overruns settings.maxDepth item.steps above name ∧
      error.location = some (.ofSpan name.span source) := by
  induction items generalizing tree with
  | nil => cases h
  | cons item rest ih =>
      rw [insertItems] at h
      split at h
      next fault hpaths =>
        cases h
        rcases item.paths_error hpaths with hempty | ⟨above, name, hoverruns, rfl⟩
        · have hcode := hlimit.1
          rw [Fault.code_toError, hempty] at hcode
          cases hcode
        · exact ⟨item, List.mem_cons_self, above, name, hoverruns, rfl⟩
      next paths _ =>
        split at h
        next hpaths =>
          cases h
          have hapart := insertPaths_apart settings.maxDepth settings source paths tree
          rw [hpaths] at hapart
          exact absurd hlimit hapart
        next =>
          obtain ⟨other, hother, hoverrun⟩ := ih h
          exact ⟨other, List.mem_cons_of_mem _ hother, hoverrun⟩

/-- If a select is refused for a path longer than the limit, the error points at the name of the first
attribute past the limit, counted from the start of the chain at which this is noticed. On a path of the
item that attribute stands behind what leads to the chain and as many attributes as the limit allows.
So it is the first one past the limit from the root of the tree as well, inside groups or not, if no
chain inside a group is too long on its own. -/
theorem path_limit_located (items : List SelectItem) (source : String) (settings : SelectSettings)
    (error : QueryError) (h : ofItems items source settings = .error error)
    (hcode : error.code = .nestingTooDeep)
    (hmessage : error.message =
      "select path is nested more than " ++ toString settings.maxDepth ++ " levels deep") :
    ∃ item ∈ items, ∃ above name, error.location = some (.ofSpan name.span source) ∧
      SelectStep.Overruns settings.maxDepth item.steps above name ∧
      (SelectItem.Filled [item] →
        ∃ path ∈ item.described, path.places[above.length + settings.maxDepth]? = some name ∧
          (item.ShortBelow settings.maxDepth → path.places[settings.maxDepth]? = some name)) := by
  obtain ⟨item, hitem, above, name, hoverruns, hlocation⟩ := exists_overrun h ⟨hcode, hmessage⟩
  exact ⟨item, hitem, above, name, hlocation, hoverruns, fun hfilled =>
    SelectItem.exists_place hfilled hoverruns⟩

/-- `x[a[b]]` -/
private def nestedItem : SelectItem :=
  .chain [.named ⟨"x", ⟨0, 1⟩⟩ [],
    .group [.chain [.named ⟨"a", ⟨2, 3⟩⟩ [],
      .group [.chain [.named ⟨"b", ⟨4, 5⟩⟩ []] ⟨4, 5⟩] [] ⟨3, 6⟩] ⟨2, 6⟩] [] ⟨1, 7⟩] ⟨0, 7⟩

/-- The third attribute of `x.a.b`, two groups deep. -/
private def nestedFinding : Finding where
  code := .nestingTooDeep
  message := "select path is nested more than 2 levels deep"
  expression := "x[a[b]]"
  location := some ⟨1, 5, 4, 1⟩
  context := none

theorem path_limit_located_nested :
    SelectItem.parse "x[a[b]]" ⟨false, .initial, 2⟩ = .ok [nestedItem] ∧
    ofItems [nestedItem] "x[a[b]]" ⟨false, .initial, 2⟩ = .error (.syntactic nestedFinding) ∧
    SelectItem.Filled [nestedItem] ∧ nestedItem.ShortBelow 2 ∧
    ∃ path ∈ nestedItem.described, ∃ name, path.places[2]? = some name ∧
      nestedFinding.location = some (.ofSpan name.span "x[a[b]]") := by
  have hwell : SelectItem.WellFormedList false [nestedItem] :=
    ⟨⟨⟨by decide, nofun⟩,
      ⟨⟨⟨⟨by decide, nofun⟩, ⟨⟨⟨⟨by decide, nofun⟩, trivial⟩, trivial⟩, nofun⟩, trivial⟩, trivial⟩,
        nofun⟩, trivial⟩, trivial⟩
  have hwritable : SelectItem.Writable false [nestedItem] :=
    SelectItem.writable_of_bare (List.cons_ne_nil _ _) hwell (by decide)
  have hparse : SelectItem.parse "x[a[b]]" ⟨false, .initial, 2⟩ = .ok [nestedItem] :=
    SelectItem.parse_eq_ok_iff.mpr ⟨hwritable, by decide +kernel, rfl, by decide +kernel⟩
  have herror : ofItems [nestedItem] "x[a[b]]" ⟨false, .initial, 2⟩ =
      .error (.syntactic nestedFinding) := by
    rw [← Formula.refusal_eq_some]
    decide +kernel
  have hfilled : SelectItem.Filled [nestedItem] := by
    unfold SelectItem.Filled
    decide
  have hshort : nestedItem.ShortBelow 2 := SelectItem.shortBelow_of_length hfilled (by decide)
  obtain ⟨item, hitem, above, name, hlocation, -, hplace⟩ :=
    path_limit_located [nestedItem] "x[a[b]]" ⟨false, .initial, 2⟩ _ herror rfl (by decide +kernel)
  obtain rfl := List.mem_singleton.mp hitem
  obtain ⟨path, hpath, -, hposition⟩ := hplace hfilled
  exact ⟨hparse, herror, hfilled, hshort, path, hpath, name, hposition hshort, hlocation⟩

/-- `x[a.b.c]` -/
private def longMember : SelectItem :=
  .chain [.named ⟨"x", ⟨0, 1⟩⟩ [],
    .group [.chain [.named ⟨"a", ⟨2, 3⟩⟩ [], .named ⟨"b", ⟨4, 5⟩⟩ [], .named ⟨"c", ⟨6, 7⟩⟩ []]
      ⟨2, 7⟩] [] ⟨1, 8⟩] ⟨0, 8⟩

/-- The third attribute of `a.b.c`, which is the fourth of `x.a.b.c`. -/
private def longFinding : Finding where
  code := .nestingTooDeep
  message := "select path is nested more than 2 levels deep"
  expression := "x[a.b.c]"
  location := some ⟨1, 7, 6, 1⟩
  context := none

/-- Of a group with a member that is too long on its own, the attribute reported is further from the
root than the first one past the limit. -/
theorem path_limit_misplaced :
    SelectItem.parse "x[a.b.c]" ⟨false, .initial, 2⟩ = .ok [longMember] ∧
    ofItems [longMember] "x[a.b.c]" ⟨false, .initial, 2⟩ = .error (.syntactic longFinding) ∧
    ∀ path ∈ longMember.described, ∀ name, path.places[2]? = some name →
      longFinding.location ≠ some (.ofSpan name.span "x[a.b.c]") := by
  have hwell : SelectItem.WellFormedList false [longMember] :=
    ⟨⟨⟨by decide, nofun⟩,
      ⟨⟨⟨⟨by decide, nofun⟩, ⟨by decide, nofun⟩, ⟨by decide, nofun⟩, trivial⟩, trivial⟩, nofun⟩,
        trivial⟩, trivial⟩
  have hwritable : SelectItem.Writable false [longMember] :=
    SelectItem.writable_of_bare (List.cons_ne_nil _ _) hwell (by decide)
  refine ⟨SelectItem.parse_eq_ok_iff.mpr ⟨hwritable, by decide +kernel, rfl, by decide +kernel⟩,
    ?_, ?_⟩
  · rw [← Formula.refusal_eq_some]
    decide +kernel
  · intro path hpath name hname
    obtain rfl := List.mem_singleton.mp hpath
    cases hname
    decide +kernel

end SelectTree

end RequestQuery
