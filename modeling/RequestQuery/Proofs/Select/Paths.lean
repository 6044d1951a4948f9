import RequestQuery.Proofs.Select.Steps
import RequestQuery.Select.Path

/-!
# The paths a select describes

What a select stands for without any limit: every path of one step is followed by every path of the
next, and a group has the paths of its members one after another. The paths are found within a limit
exactly if no group is empty and none of them is longer.
-/

namespace RequestQuery

/-- Every path followed by every tail, the tails varying fastest. -/
def LinkPath.joinAll (paths tails : List LinkPath) : List LinkPath :=
  paths.flatMap fun path => tails.map fun tail => path ++ tail

mutual
/-- The paths an item describes, however long. -/
def SelectItem.described : SelectItem → List LinkPath
  | .chain steps _ => SelectStep.product steps

def SelectItem.describedList : List SelectItem → List LinkPath
  | [] => []
  | item :: rest => item.described ++ SelectItem.describedList rest

/-- A group hands its parameters to the last attribute of each path. -/
def SelectStep.described : SelectStep → List LinkPath
  | .named name parameters => [[⟨name, parameters⟩]]
  | .group members parameters _ =>
      (SelectItem.describedList members).map (LinkPath.addParameters parameters)

/-- The paths of steps one after another. -/
def SelectStep.product : List SelectStep → List LinkPath
  | [] => [[]]
  | step :: rest => LinkPath.joinAll step.described (SelectStep.product rest)
end

def SelectStep.isEmptyGroup : SelectStep → Bool
  | .group [] _ _ => true
  | _ => false

/-- The members of a group have at least one step each. -/
def SelectStep.Full (step : SelectStep) : Prop := ∀ item ∈ step.members, item.steps ≠ []

namespace LinkPath

theorem mem_joinAll {paths tails : List LinkPath} {path : LinkPath} :
    path ∈ joinAll paths tails ↔ ∃ front ∈ paths, ∃ tail ∈ tails, path = front ++ tail := by
  simp only [joinAll, List.mem_flatMap, List.mem_map, eq_comm]

theorem joinAll_ne_nil {paths tails : List LinkPath} (hpaths : paths ≠ []) (htails : tails ≠ []) :
    joinAll paths tails ≠ [] := by
  obtain ⟨front, hfront⟩ := List.exists_mem_of_ne_nil _ hpaths
  obtain ⟨tail, htail⟩ := List.exists_mem_of_ne_nil _ htails
  exact List.ne_nil_of_mem (mem_joinAll.mpr ⟨front, hfront, tail, htail, rfl⟩)

theorem joinAll_assoc (first second third : List LinkPath) :
    joinAll (joinAll first second) third = joinAll first (joinAll second third) := by
  simp only [joinAll, List.flatMap_assoc, List.flatMap_map, List.map_flatMap, List.map_map,
    Function.comp_def, List.append_assoc]

theorem joinAll_nil_left (tails : List LinkPath) : joinAll [[]] tails = tails := by
  simp [joinAll]

theorem joinAll_nil_right (paths : List LinkPath) : joinAll paths [[]] = paths := by
  simp [joinAll]

variable {limit : Nat}

theorem checkLength_eq_ok {path path' : LinkPath} :
    checkLength limit path = .ok path' ↔ path.length ≤ limit ∧ path' = path := by
  unfold checkLength
  by_cases h : path.length ≤ limit
  · rw [List.getElem?_eq_none h]
    simp [h, eq_comm]
  · rw [List.getElem?_eq_getElem (by omega)]
    simp [h]

theorem followAll_eq_ok {path : LinkPath} {tails paths : List LinkPath} :
    followAll limit path tails = .ok paths ↔
      (∀ tail ∈ tails, (path ++ tail).length ≤ limit) ∧
        paths = tails.map fun tail => path ++ tail := by
  induction tails generalizing paths with
  | nil => simp [followAll, eq_comm]
  | cons tail tails ih =>
      rw [followAll, List.forall_mem_cons, List.map_cons]
      constructor
      · intro h
        split at h
        next => cases h
        next first hfirst =>
          split at h <;> cases h
          next more hmore =>
            obtain ⟨hle, rfl⟩ := checkLength_eq_ok.mp hfirst
            obtain ⟨hrest, rfl⟩ := ih.mp hmore
            exact ⟨⟨hle, hrest⟩, rfl⟩
      · rintro ⟨⟨hle, hrest⟩, rfl⟩
        rw [checkLength_eq_ok.mpr ⟨hle, rfl⟩, ih.mpr ⟨hrest, rfl⟩]

theorem cross_eq_ok {tails paths crossed : List LinkPath} :
    cross limit tails paths = .ok crossed ↔
      (∀ path ∈ joinAll paths tails, path.length ≤ limit) ∧ crossed = joinAll paths tails := by
  induction paths generalizing crossed with
  | nil => simp [cross, joinAll, eq_comm]
  | cons path paths ih =>
      have hjoin : joinAll (path :: paths) tails =
          tails.map (fun tail => path ++ tail) ++ joinAll paths tails := List.flatMap_cons
      rw [cross, hjoin, List.forall_mem_append, List.forall_mem_map]
      constructor
      · intro h
        split at h
        next => cases h
        next first hfirst =>
          split at h <;> cases h
          next more hmore =>
            obtain ⟨hle, rfl⟩ := followAll_eq_ok.mp hfirst
            obtain ⟨hrest, rfl⟩ := ih.mp hmore
            exact ⟨⟨hle, hrest⟩, rfl⟩
      · rintro ⟨⟨hle, hrest⟩, rfl⟩
        rw [followAll_eq_ok.mpr ⟨hle, rfl⟩, ih.mpr ⟨hrest, rfl⟩]

theorem length_addParameters (parameters : List RawParameter) (path : LinkPath) :
    (addParameters parameters path).length = path.length := by
  fun_induction addParameters parameters path with
  | case1 => rfl
  | case2 link => rfl
  | case3 link rest _ ih => rw [List.length_cons, List.length_cons, ih]

end LinkPath

section Described

mutual
theorem SelectItem.described_ne_nil : ∀ item : SelectItem,
    (∀ step ∈ item.allSteps, step.isEmptyGroup = false) → item.described ≠ []
  | .chain steps _, h => SelectStep.product_ne_nil steps h

theorem SelectItem.describedList_ne_nil : ∀ items : List SelectItem, items ≠ [] →
    (∀ step ∈ SelectItem.allStepsList items, step.isEmptyGroup = false) →
      SelectItem.describedList items ≠ []
  | [], hne, _ => absurd rfl hne
  | item :: rest, _, h => by
      rw [SelectItem.allStepsList, List.forall_mem_append] at h
      have hfirst := item.described_ne_nil h.1
      simp [SelectItem.describedList, hfirst]

theorem SelectStep.described_ne_nil : ∀ step : SelectStep,
    (∀ s ∈ step.allSteps, s.isEmptyGroup = false) → step.described ≠ []
  | .named name parameters, _ => by simp [SelectStep.described]
  | .group members parameters span, h => by
      rw [SelectStep.allSteps, List.forall_mem_cons] at h
      have hmembers : members ≠ [] := by
        rintro rfl
        cases h.1
      have hpaths := SelectItem.describedList_ne_nil members hmembers h.2
      simp [SelectStep.described, hpaths]

theorem SelectStep.product_ne_nil : ∀ steps : List SelectStep,
    (∀ s ∈ SelectStep.allStepsList steps, s.isEmptyGroup = false) → SelectStep.product steps ≠ []
  | [], _ => by simp [SelectStep.product]
  | step :: rest, h => by
      rw [SelectStep.allStepsList, List.forall_mem_append] at h
      exact LinkPath.joinAll_ne_nil (step.described_ne_nil h.1)
        (SelectStep.product_ne_nil rest h.2)
end

variable {limit : Nat}

mutual
theorem SelectItem.paths_eq_ok : ∀ (item : SelectItem) (paths : List LinkPath),
    item.paths limit = .ok paths ↔
      (∀ step ∈ item.allSteps, step.isEmptyGroup = false) ∧
        (∀ path ∈ item.described, path.length ≤ limit) ∧ paths = item.described
  | .chain steps _, paths => by
      have hwalk := SelectStep.walk_eq_ok steps [[]] paths (by simp) (by simp)
      rwa [LinkPath.joinAll_nil_left] at hwalk

theorem SelectItem.pathsList_eq_ok : ∀ (items : List SelectItem) (paths : List LinkPath),
    SelectItem.pathsList limit items = .ok paths ↔
      (∀ step ∈ SelectItem.allStepsList items, step.isEmptyGroup = false) ∧
        (∀ path ∈ SelectItem.describedList items, path.length ≤ limit) ∧
          paths = SelectItem.describedList items
  | [], paths => by
      simp only [SelectItem.pathsList, SelectItem.allStepsList, SelectItem.describedList,
        Except.ok.injEq, List.not_mem_nil, false_implies, implies_true, true_and]
      exact eq_comm
  | item :: rest, paths => by
      rw [SelectItem.pathsList, SelectItem.allStepsList, SelectItem.describedList,
        List.forall_mem_append, List.forall_mem_append]
      constructor
      · intro h
        split at h
        next => cases h
        next first hfirst =>
          split at h <;> cases h
          next more hmore =>
            obtain ⟨hgroups, hle, rfl⟩ := (item.paths_eq_ok first).mp hfirst
            obtain ⟨hgroups', hle', rfl⟩ := (SelectItem.pathsList_eq_ok rest more).mp hmore
            exact ⟨⟨hgroups, hgroups'⟩, ⟨hle, hle'⟩, rfl⟩
      · rintro ⟨⟨hgroups, hgroups'⟩, ⟨hle, hle'⟩, rfl⟩
        rw [(item.paths_eq_ok _).mpr ⟨hgroups, hle, rfl⟩,
          (SelectItem.pathsList_eq_ok rest _).mpr ⟨hgroups', hle', rfl⟩]

theorem SelectStep.paths_eq_ok : ∀ (step : SelectStep) (paths : List LinkPath),
    step.paths limit = .ok paths →
      (∀ s ∈ step.allSteps, s.isEmptyGroup = false) ∧ paths = step.described
  | .named name parameters, paths, h => by
      cases h
      simp [SelectStep.allSteps, SelectStep.described, SelectStep.isEmptyGroup]
  | .group [] parameters span, paths, h => by cases h
  | .group (item :: more) parameters span, paths, h => by
          rw [SelectStep.paths] at h
          split at h <;> cases h
          next found hfound =>
            obtain ⟨hgroups, -, rfl⟩ := (SelectItem.pathsList_eq_ok (item :: more) found).mp hfound
            rw [SelectStep.allSteps, List.forall_mem_cons]
            exact ⟨⟨rfl, hgroups⟩, rfl⟩

theorem SelectStep.paths_of_described : ∀ step : SelectStep,
    (∀ s ∈ step.allSteps, s.isEmptyGroup = false) →
    (∀ path ∈ step.described, path.length ≤ limit) → step.paths limit = .ok step.described
  | .named name parameters, _, _ => rfl
  | .group members parameters span, hgroups, hle => by
      rw [SelectStep.allSteps, List.forall_mem_cons] at hgroups
      have hmembers : ∀ path ∈ SelectItem.describedList members, path.length ≤ limit := by
        intro path hpath
        rw [← LinkPath.length_addParameters parameters path]
        exact hle _ (List.mem_map_of_mem hpath)
      cases members with
      | nil => cases hgroups.1
      | cons item more =>
          rw [SelectStep.paths,
            (SelectItem.pathsList_eq_ok (item :: more) _).mpr ⟨hgroups.2, hmembers, rfl⟩]
          rfl

theorem SelectStep.walk_eq_ok : ∀ (steps : List SelectStep) (before paths : List LinkPath),
    before ≠ [] → (∀ path ∈ before, path.length ≤ limit) →
    (SelectStep.walk limit steps before = .ok paths ↔
      (∀ s ∈ SelectStep.allStepsList steps, s.isEmptyGroup = false) ∧
        (∀ path ∈ LinkPath.joinAll before (SelectStep.product steps), path.length ≤ limit) ∧
          paths = LinkPath.joinAll before (SelectStep.product steps))
  | [], before, paths, _, hbefore => by
      rw [SelectStep.walk, SelectStep.allStepsList, SelectStep.product, LinkPath.joinAll_nil_right,
        Except.ok.injEq]
      exact ⟨fun h => ⟨by simp, hbefore, h.symm⟩, fun h => h.2.2.symm⟩
  | step :: rest, before, paths, hne, _ => by
      rw [SelectStep.walk, SelectStep.allStepsList, SelectStep.product, ← LinkPath.joinAll_assoc,
        List.forall_mem_append]
      constructor
      · intro h
        split at h
        next => cases h
        next tails htails =>
          obtain ⟨hgroups, rfl⟩ := step.paths_eq_ok tails htails
          split at h
          next => cases h
          next crossed hcrossed =>
            obtain ⟨hle, rfl⟩ := LinkPath.cross_eq_ok.mp hcrossed
            have hne' := LinkPath.joinAll_ne_nil hne (step.described_ne_nil hgroups)
            obtain ⟨hgroups', hrest⟩ := (SelectStep.walk_eq_ok rest _ paths hne' hle).mp h
            exact ⟨⟨hgroups, hgroups'⟩, hrest⟩
      · rintro ⟨⟨hgroups, hgroups'⟩, hle, rfl⟩
        have hne' := LinkPath.joinAll_ne_nil hne (step.described_ne_nil hgroups)
        -- Something follows every front, so a front is no longer than a whole path.
        obtain ⟨tail, htail⟩ := List.exists_mem_of_ne_nil _ (SelectStep.product_ne_nil rest hgroups')
        have hcrossed : ∀ path ∈ LinkPath.joinAll before step.described, path.length ≤ limit := by
          intro path hpath
          have hwhole := hle _ (LinkPath.mem_joinAll.mpr ⟨path, hpath, tail, htail, rfl⟩)
          rw [List.length_append] at hwhole
          omega
        have hstep : ∀ path ∈ step.described, path.length ≤ limit := by
          intro path hpath
          obtain ⟨front, hfront⟩ := List.exists_mem_of_ne_nil _ hne
          have hfollowed := hcrossed _ (LinkPath.mem_joinAll.mpr ⟨front, hfront, path, hpath, rfl⟩)
          rw [List.length_append] at hfollowed
          omega
        rw [step.paths_of_described hgroups hstep]
        simp only
        rw [LinkPath.cross_eq_ok.mpr ⟨hcrossed, rfl⟩]
        exact (SelectStep.walk_eq_ok rest _ _ hne' hcrossed).mpr ⟨hgroups', hle, rfl⟩
end

mutual
theorem SelectItem.nil_not_mem_described : ∀ item : SelectItem, item.steps ≠ [] →
    (∀ step ∈ item.allSteps, step.Full) → [] ∉ item.described
  | .chain steps _, hne, hfull => SelectStep.nil_not_mem_product steps hne hfull

theorem SelectItem.nil_not_mem_describedList : ∀ items : List SelectItem,
    (∀ item ∈ items, item.steps ≠ []) → (∀ step ∈ SelectItem.allStepsList items, step.Full) →
      [] ∉ SelectItem.describedList items
  | [], _, _ => List.not_mem_nil
  | item :: rest, hne, hfull => by
      rw [List.forall_mem_cons] at hne
      rw [SelectItem.allStepsList, List.forall_mem_append] at hfull
      rw [SelectItem.describedList, List.mem_append, not_or]
      exact ⟨item.nil_not_mem_described hne.1 hfull.1,
        SelectItem.nil_not_mem_describedList rest hne.2 hfull.2⟩

theorem SelectStep.nil_not_mem_described : ∀ step : SelectStep,
    (∀ s ∈ step.allSteps, s.Full) → [] ∉ step.described
  | .named name parameters, _ => by simp [SelectStep.described]
  | .group members parameters _, hfull => by
      rw [SelectStep.allSteps, List.forall_mem_cons] at hfull
      have hmembers := SelectItem.nil_not_mem_describedList members hfull.1 hfull.2
      intro hnil
      obtain ⟨path, hpath, hadd⟩ := List.mem_map.mp hnil
      have hlength := LinkPath.length_addParameters parameters path
      rw [hadd, List.length_nil] at hlength
      rw [List.length_eq_zero_iff.mp hlength.symm] at hpath
      exact hmembers hpath

theorem SelectStep.nil_not_mem_product : ∀ steps : List SelectStep, steps ≠ [] →
    (∀ s ∈ SelectStep.allStepsList steps, s.Full) → [] ∉ SelectStep.product steps
  | [], hne, _ => absurd rfl hne
  | step :: rest, _, hfull => by
      rw [SelectStep.allStepsList, List.forall_mem_append] at hfull
      have hstep := step.nil_not_mem_described hfull.1
      intro hnil
      obtain ⟨front, hfront, tail, -, heq⟩ := LinkPath.mem_joinAll.mp hnil
      rw [(List.append_eq_nil_iff.mp heq.symm).1] at hfront
      exact hstep hfront
end

def LinkPath.parameters (path : LinkPath) : List RawParameter := path.flatMap Link.parameters

theorem LinkPath.mem_parameters_addParameters {parameters : List RawParameter} {path : LinkPath}
    (hne : path ≠ []) {raw : RawParameter} :
    raw ∈ LinkPath.parameters (LinkPath.addParameters parameters path) ↔
      raw ∈ LinkPath.parameters path ∨ raw ∈ parameters := by
  fun_induction LinkPath.addParameters parameters path with
  | case1 => exact absurd rfl hne
  | case2 link => simp [LinkPath.parameters]
  | case3 link rest hrest ih =>
      have hmore := ih hrest
      simp only [LinkPath.parameters, List.flatMap_cons, List.mem_append] at hmore ⊢
      rw [hmore, or_assoc]

theorem LinkPath.mem_parameters_map_addParameters {parameters : List RawParameter}
    {paths : List LinkPath} (hpaths : paths ≠ []) (hnil : [] ∉ paths) {raw : RawParameter} :
    raw ∈ (paths.map (LinkPath.addParameters parameters)).flatMap LinkPath.parameters ↔
      raw ∈ parameters ∨ raw ∈ paths.flatMap LinkPath.parameters := by
  simp only [List.mem_flatMap, List.mem_map, exists_exists_and_eq_and]
  constructor
  · rintro ⟨path, hpath, hraw⟩
    have hne : path ≠ [] := fun h => hnil (h ▸ hpath)
    rcases (LinkPath.mem_parameters_addParameters hne).mp hraw with hraw | hraw
    · exact .inr ⟨path, hpath, hraw⟩
    · exact .inl hraw
  · have hadd : ∀ path ∈ paths, raw ∈ LinkPath.parameters path ∨ raw ∈ parameters →
        raw ∈ LinkPath.parameters (LinkPath.addParameters parameters path) := by
      intro path hpath hraw
      have hne : path ≠ [] := fun h => hnil (h ▸ hpath)
      exact (LinkPath.mem_parameters_addParameters hne).mpr hraw
    rintro (hraw | ⟨path, hpath, hraw⟩)
    · obtain ⟨path, hpath⟩ := List.exists_mem_of_ne_nil _ hpaths
      exact ⟨path, hpath, hadd path hpath (.inr hraw)⟩
    · exact ⟨path, hpath, hadd path hpath (.inl hraw)⟩

theorem LinkPath.mem_parameters_joinAll {paths tails : List LinkPath} (hpaths : paths ≠ [])
    (htails : tails ≠ []) {raw : RawParameter} :
    raw ∈ (LinkPath.joinAll paths tails).flatMap LinkPath.parameters ↔
      raw ∈ paths.flatMap LinkPath.parameters ∨ raw ∈ tails.flatMap LinkPath.parameters := by
  simp only [List.mem_flatMap, LinkPath.mem_joinAll]
  constructor
  · rintro ⟨path, ⟨front, hfront, tail, htail, rfl⟩, hraw⟩
    rw [LinkPath.parameters, List.flatMap_append, List.mem_append] at hraw
    rcases hraw with hraw | hraw
    · exact .inl ⟨front, hfront, hraw⟩
    · exact .inr ⟨tail, htail, hraw⟩
  · obtain ⟨front, hfront⟩ := List.exists_mem_of_ne_nil _ hpaths
    obtain ⟨tail, htail⟩ := List.exists_mem_of_ne_nil _ htails
    rintro (⟨path, hpath, hraw⟩ | ⟨path, hpath, hraw⟩)
    · refine ⟨path ++ tail, ⟨path, hpath, tail, htail, rfl⟩, ?_⟩
      rw [LinkPath.parameters, List.flatMap_append]
      exact List.mem_append_left _ hraw
    · refine ⟨front ++ path, ⟨front, hfront, path, hpath, rfl⟩, ?_⟩
      rw [LinkPath.parameters, List.flatMap_append]
      exact List.mem_append_right _ hraw

section Parameters

variable {raw : RawParameter}

mutual
theorem SelectItem.mem_parameters_described : ∀ item : SelectItem,
    (∀ step ∈ item.allSteps, step.isEmptyGroup = false ∧ step.Full) →
    (raw ∈ item.described.flatMap LinkPath.parameters ↔
      raw ∈ item.allSteps.flatMap SelectStep.parameters)
  | .chain steps _, h => SelectStep.mem_parameters_product steps h

/-- The paths have all parameters of all steps, and no others. -/
theorem SelectItem.mem_parameters_describedList : ∀ items : List SelectItem,
    (∀ step ∈ SelectItem.allStepsList items, step.isEmptyGroup = false ∧ step.Full) →
    (raw ∈ (SelectItem.describedList items).flatMap LinkPath.parameters ↔
      raw ∈ (SelectItem.allStepsList items).flatMap SelectStep.parameters)
  | [], _ => Iff.rfl
  | item :: rest, h => by
      rw [SelectItem.allStepsList, List.forall_mem_append] at h
      rw [SelectItem.describedList, SelectItem.allStepsList, List.flatMap_append,
        List.flatMap_append, List.mem_append, List.mem_append, item.mem_parameters_described h.1,
        SelectItem.mem_parameters_describedList rest h.2]

theorem SelectStep.mem_parameters_described : ∀ step : SelectStep,
    (∀ s ∈ step.allSteps, s.isEmptyGroup = false ∧ s.Full) →
    (raw ∈ step.described.flatMap LinkPath.parameters ↔
      raw ∈ step.allSteps.flatMap SelectStep.parameters)
  | .named name parameters, _ => by
      simp [SelectStep.described, SelectStep.allSteps, LinkPath.parameters, SelectStep.parameters]
  | .group members parameters span, h => by
      rw [SelectStep.allSteps, List.forall_mem_cons] at h
      have hmembers : members ≠ [] := by
        rintro rfl
        cases h.1.1
      have hpaths := SelectItem.describedList_ne_nil members hmembers fun s hs => (h.2 s hs).1
      have hnil := SelectItem.nil_not_mem_describedList members h.1.2 fun s hs => (h.2 s hs).2
      rw [SelectStep.described, LinkPath.mem_parameters_map_addParameters hpaths hnil,
        SelectStep.allSteps, List.flatMap_cons, List.mem_append,
        SelectItem.mem_parameters_describedList members h.2]
      rfl

theorem SelectStep.mem_parameters_product : ∀ steps : List SelectStep,
    (∀ s ∈ SelectStep.allStepsList steps, s.isEmptyGroup = false ∧ s.Full) →
    (raw ∈ (SelectStep.product steps).flatMap LinkPath.parameters ↔
      raw ∈ (SelectStep.allStepsList steps).flatMap SelectStep.parameters)
  | [], _ => by simp [SelectStep.product, SelectStep.allStepsList, LinkPath.parameters]
  | step :: rest, h => by
      rw [SelectStep.allStepsList, List.forall_mem_append] at h
      have hstep := step.described_ne_nil fun s hs => (h.1 s hs).1
      have hrest := SelectStep.product_ne_nil rest fun s hs => (h.2 s hs).1
      rw [SelectStep.product, SelectStep.allStepsList, List.flatMap_append, List.mem_append,
        LinkPath.mem_parameters_joinAll hstep hrest, step.mem_parameters_described h.1,
        SelectStep.mem_parameters_product rest h.2]
end

end Parameters

end Described

end RequestQuery
