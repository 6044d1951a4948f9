import RequestQuery.Proofs.Select.Join
import RequestQuery.Proofs.Select.Separation
import RequestQuery.Proofs.Select.Union

/-!
# Short-hands of a select

A chain may have its last steps in a group of their own, and a group of several members may be written
as several chains. Both forms describe the same paths: the first in the same order, the second in
another one. The order of paths does not matter, since a path is put into a tree as the node of its
first attribute would be, and nodes may be put into a tree in any order.
-/

namespace RequestQuery

theorem SameOutcome.exists_iff {ε α : Type} {same : α → α → Bool} {left right : Except ε α}
    (h : SameOutcome same left right) : (∃ a, left = .ok a) ↔ ∃ b, right = .ok b := by
  cases left <;> cases right <;> cases h <;> simp

theorem SameOutcome.same {ε α : Type} {same : α → α → Bool} {left right : Except ε α}
    (h : SameOutcome same left right) {a b : α} (ha : left = .ok a) (hb : right = .ok b) :
    same a b = true := by
  subst ha hb
  cases h with
  | some hsame => exact hsame

namespace LinkPath

/-- The node of an attribute with the rest of its path below it. -/
def branch (settings : SelectSettings) (link : Link) : LinkPath → SelectNode
  | [] => .mk link.name.value (link.table settings) none
  | next :: rest =>
      .mk link.name.value (link.table settings) (some (SelectTree.alone (branch settings next rest)))

/-- The node that a path is put into a tree as; a path of no attributes is none. -/
def branch? (settings : SelectSettings) : LinkPath → Option SelectNode
  | [] => none
  | link :: rest => some (branch settings link rest)

variable {settings : SelectSettings}

theorem name_branch (link : Link) (rest : LinkPath) :
    (branch settings link rest).name = link.name.value := by
  cases rest <;> rfl

theorem parameters_branch (link : Link) (rest : LinkPath) :
    (branch settings link rest).parameters = link.table settings := by
  cases rest <;> rfl

theorem wellFormed_branch (link : Link) (rest : LinkPath) :
    (branch settings link rest).WellFormed := by
  rw [SelectNode.wellFormed_iff, parameters_branch]
  refine ⟨link.nodup_keys_table, ?_⟩
  induction rest generalizing link with
  | nil => exact ⟨List.nodup_nil, trivial⟩
  | cons next rest ih =>
      have hnext : (branch settings next rest).WellFormed :=
        SelectNode.wellFormed_iff.mpr
          ⟨(parameters_branch next rest).symm ▸ next.nodup_keys_table, ih next⟩
      exact ⟨List.nodup_singleton _, ⟨rfl, hnext⟩, trivial⟩

end LinkPath

namespace SelectTree

variable {settings : SelectSettings} {source : String}

theorem insertMerged_eq_ok {tree result : SelectTree} {node : SelectNode} :
    tree.insertMerged node = .ok result ↔ tree.absorb node = (result, none) := by
  rw [insertMerged]
  obtain ⟨merged, conflict⟩ := tree.absorb node
  cases conflict <;> simp

theorem insertAll_branch? (tree : SelectTree) (link : Link) (rest : LinkPath) :
    tree.insertAll (LinkPath.branch? settings (link :: rest)).toList =
      tree.insertMerged (LinkPath.branch settings link rest) := by
  simp [LinkPath.branch?, insertAll]

/-- Merging a branch into a node merges the parameters and puts the rest of the path below. -/
theorem absorb_branch {own node : SelectNode} {link : Link} {rest : LinkPath} :
    own.absorb (LinkPath.branch settings link rest) = (node, none) ↔
      ∃ merged children,
        Parameters.merge own.parameters (link.table settings) = .ok merged ∧
        own.childTable.insertAll (LinkPath.branch? settings rest).toList = .ok children ∧
        node = .mk own.name merged (if rest.isEmpty then own.children else some children) := by
  have hparameters : (LinkPath.branch settings link rest).parameters = link.table settings :=
    LinkPath.parameters_branch link rest
  cases hmerge : Parameters.merge own.parameters (link.table settings) with
  | error parameter =>
      rw [SelectNode.absorb_of_error (hparameters.symm ▸ hmerge)]
      simp
  | ok merged =>
      rw [SelectNode.absorb_of_ok (hparameters.symm ▸ hmerge)]
      cases rest with
      | nil =>
          simp [LinkPath.branch, LinkPath.branch?, SelectNode.children, SelectNode.childTable,
            SelectNode.absorbEntries, insertAll, pure, Except.pure, eq_comm]
      | cons next rest =>
          have hentries : SelectNode.absorbEntries own.childTable
              (LinkPath.branch settings link (next :: rest)).childTable =
                own.childTable.absorb (LinkPath.branch settings next rest) :=
            absorbEntries_alone own.childTable (LinkPath.branch settings next rest)
          have hchildren : (LinkPath.branch settings link (next :: rest)).children =
              some (LinkPath.branch settings link (next :: rest)).childTable := rfl
          simp only [insertAll_branch?, insertMerged_eq_ok, hchildren, Option.elim_some, hentries]
          obtain ⟨table, conflict⟩ := own.childTable.absorb (LinkPath.branch settings next rest)
          cases conflict <;> simp [eq_comm]

private theorem absorb_bare (link : Link) (rest : LinkPath) :
    (SelectNode.bare link.name.value).absorb (LinkPath.branch settings link rest) =
      (LinkPath.branch settings link rest, none) := by
  have hmerged : Parameters.merge [] (link.table settings) = .ok (link.table settings) :=
    Parameters.merge_eq_ok.mpr ⟨fun h => absurd rfl h, rfl⟩
  cases rest with
  | nil => exact absorb_branch.mpr ⟨_, [], hmerged, rfl, rfl⟩
  | cons next rest =>
      have hchildren : insertAll [] (LinkPath.branch? settings (next :: rest)).toList =
          .ok (alone (LinkPath.branch settings next rest)) := by
        rw [insertAll_branch?]
        rfl
      exact absorb_branch.mpr ⟨_, _, hmerged, hchildren, rfl⟩

private theorem absorb_entry (tree : SelectTree) (link : Link) (rest : LinkPath) :
    tree.absorb (LinkPath.branch settings link rest) =
      (tree.put link.name.value
          ((tree.entry link.name.value).absorb (LinkPath.branch settings link rest)).1,
        ((tree.entry link.name.value).absorb (LinkPath.branch settings link rest)).2) := by
  rw [absorb, entry, LinkPath.name_branch]
  cases tree.find? link.name.value with
  | some existing => rfl
  | none => rw [Option.getD_none, absorb_bare]

theorem insertMerged_branch {tree result : SelectTree} {link : Link} {rest : LinkPath} :
    tree.insertMerged (LinkPath.branch settings link rest) = .ok result ↔
      ∃ merged children,
        Parameters.merge (tree.entry link.name.value).parameters (link.table settings) = .ok merged ∧
        (tree.entry link.name.value).childTable.insertAll (LinkPath.branch? settings rest).toList =
          .ok children ∧
        result = tree.put link.name.value (.mk (tree.entry link.name.value).name merged
          (if rest.isEmpty then (tree.entry link.name.value).children else some children)) := by
  simp only [insertMerged_eq_ok, absorb_entry, Prod.mk.injEq]
  constructor
  · rintro ⟨rfl, hnone⟩
    obtain ⟨merged, children, hmerged, hchildren, hnode⟩ := absorb_branch.mp (Prod.ext rfl hnone)
    exact ⟨merged, children, hmerged, hchildren, congrArg (Table.put tree link.name.value) hnode⟩
  · rintro ⟨merged, children, hmerged, hchildren, rfl⟩
    rw [absorb_branch.mpr ⟨merged, children, hmerged, hchildren, rfl⟩]
    exact ⟨rfl, rfl⟩

theorem insertPath_eq_ok {path : LinkPath} {above : List String} {tree result : SelectTree} :
    insertPath settings source above path tree = .ok result ↔
      (∀ link ∈ path, link.Readable settings) ∧
        tree.insertAll (LinkPath.branch? settings path).toList = .ok result := by
  induction path generalizing above tree result with
  | nil => simp [insertPath, LinkPath.branch?, insertAll, pure, Except.pure]
  | cons link rest ih =>
      rw [insertPath_cons, insertAll_branch?, insertMerged_branch, List.forall_mem_cons]
      simp only [ih]
      constructor
      · rintro ⟨hlink, merged, children, hmerged, ⟨hrest, hchildren⟩, rfl⟩
        exact ⟨⟨hlink, hrest⟩, merged, children, hmerged, hchildren, rfl⟩
      · rintro ⟨⟨hlink, hrest⟩, merged, children, hmerged, hchildren, rfl⟩
        exact ⟨hlink, merged, children, hmerged, ⟨hrest, hchildren⟩, rfl⟩

/-- Paths are put into a tree as their nodes would be, if all their attributes can be read. -/
theorem insertPaths_eq_ok {paths : List LinkPath} {tree result : SelectTree} :
    insertPaths settings source paths tree = .ok result ↔
      (∀ path ∈ paths, ∀ link ∈ path, link.Readable settings) ∧
        tree.insertAll (paths.filterMap (LinkPath.branch? settings)) = .ok result := by
  induction paths generalizing tree with
  | nil => simp [insertPaths, insertAll, pure, Except.pure]
  | cons path paths ih =>
      have hnodes : (path :: paths).filterMap (LinkPath.branch? settings) =
          (LinkPath.branch? settings path).toList ++ paths.filterMap (LinkPath.branch? settings) := by
        rw [List.filterMap_cons]
        cases LinkPath.branch? settings path <;> rfl
      have hbind : tree.insertAll ((path :: paths).filterMap (LinkPath.branch? settings)) =
          tree.insertAll (LinkPath.branch? settings path).toList >>= fun mid =>
            mid.insertAll (paths.filterMap (LinkPath.branch? settings)) := by
        rw [hnodes, insertAll, List.foldlM_append]
        rfl
      rw [insertPaths, List.forall_mem_cons, hbind]
      constructor
      · intro h
        split at h
        next => cases h
        next mid hmid =>
          obtain ⟨hpath, hinsert⟩ := insertPath_eq_ok.mp hmid
          obtain ⟨hrest, hresult⟩ := ih.mp h
          rw [hinsert]
          exact ⟨⟨hpath, hrest⟩, hresult⟩
      · rintro ⟨⟨hpath, hrest⟩, h⟩
        cases hinsert : tree.insertAll (LinkPath.branch? settings path).toList with
        | error conflict =>
            rw [hinsert] at h
            cases h
        | ok mid =>
            rw [hinsert] at h
            rw [insertPath_eq_ok.mpr ⟨hpath, hinsert⟩]
            exact ih.mpr ⟨hrest, h⟩

theorem insertPaths_perm {paths paths' : List LinkPath} (h : paths.Perm paths') :
    SameOutcome same (insertPaths settings source paths [])
      (insertPaths settings source paths' []) := by
  have hreadable : (∀ path ∈ paths, ∀ link ∈ path, link.Readable settings) ↔
      ∀ path ∈ paths', ∀ link ∈ path, link.Readable settings :=
    forall_congr' fun path => imp_congr_left h.mem_iff
  have hnodes : ∀ node ∈ paths.filterMap (LinkPath.branch? settings), node.WellFormed := by
    intro node hnode
    obtain ⟨path, -, hbranch⟩ := List.mem_filterMap.mp hnode
    cases path with
    | nil => cases hbranch
    | cons link rest =>
        cases hbranch
        exact LinkPath.wellFormed_branch link rest
  have hempty : SelectTree.WellFormed [] := ⟨List.nodup_nil, trivial⟩
  have hsame := insertAll_perm hempty hnodes (h.filterMap (LinkPath.branch? settings))
  apply sameOutcome_of_iff
  · simp only [insertPaths_eq_ok, hreadable, exists_and_left]
    exact and_congr_right fun _ => hsame.exists_iff
  · intro tree tree' htree htree'
    exact hsame.same (insertPaths_eq_ok.mp htree).2 (insertPaths_eq_ok.mp htree').2

end SelectTree

namespace LinkPath

theorem addParameters_nil (path : LinkPath) : addParameters [] path = path := by
  fun_induction addParameters [] path with
  | case1 => rfl
  | case2 link => rw [List.append_nil]
  | case3 link rest _ ih => rw [ih]

theorem joinAll_perm {paths paths' tails tails' : List LinkPath} (hpaths : paths.Perm paths')
    (htails : tails.Perm tails') : (joinAll paths tails).Perm (joinAll paths' tails') :=
  (hpaths.flatMap_right _).trans (List.Perm.flatMap_left _ fun _ _ => htails.map _)

/-- Tails from two lists follow a path in turn instead of all at once. -/
theorem joinAll_append_perm (paths left right : List LinkPath) :
    (joinAll paths (left ++ right)).Perm (joinAll paths left ++ joinAll paths right) := by
  simp only [joinAll, List.map_append]
  exact (List.flatMap_append_perm paths _ _).symm

theorem append_joinAll (left right tails : List LinkPath) :
    joinAll (left ++ right) tails = joinAll left tails ++ joinAll right tails :=
  List.flatMap_append

end LinkPath

theorem SelectStep.product_append (front rest : List SelectStep) :
    product (front ++ rest) = LinkPath.joinAll (product front) (product rest) := by
  induction front with
  | nil => exact (LinkPath.joinAll_nil_left _).symm
  | cons step front ih =>
      rw [List.cons_append, product, product, ih, LinkPath.joinAll_assoc]

theorem SelectStep.allStepsList_append (front rest : List SelectStep) :
    allStepsList (front ++ rest) = allStepsList front ++ allStepsList rest := by
  induction front with
  | nil => rfl
  | cons step front ih => simp [allStepsList, ih]

namespace SelectItem

theorem describedList_append (front rest : List SelectItem) :
    describedList (front ++ rest) = describedList front ++ describedList rest := by
  induction front with
  | nil => rfl
  | cons item front ih => simp [describedList, ih]

/-- No group at any depth is empty. -/
def Filled (items : List SelectItem) : Prop :=
  ∀ step ∈ allStepsList items, step.isEmptyGroup = false

/-- The steps of a chain hold no empty group at any depth. -/
private def FilledSteps (steps : List SelectStep) : Prop :=
  ∀ step ∈ SelectStep.allStepsList steps, step.isEmptyGroup = false

private theorem filled_nil : Filled [] := nofun

private theorem filledSteps_nil : FilledSteps [] := nofun

theorem filled_append (front rest : List SelectItem) :
    Filled (front ++ rest) ↔ Filled front ∧ Filled rest := by
  rw [Filled, allStepsList_append, List.forall_mem_append]
  rfl

private theorem filled_cons (steps : List SelectStep) (span : Span) (rest : List SelectItem) :
    Filled (.chain steps span :: rest) ↔ FilledSteps steps ∧ Filled rest := by
  rw [Filled, allStepsList, List.forall_mem_append, allSteps]
  rfl

private theorem filledSteps_append (front rest : List SelectStep) :
    FilledSteps (front ++ rest) ↔ FilledSteps front ∧ FilledSteps rest := by
  rw [FilledSteps, SelectStep.allStepsList_append, List.forall_mem_append]
  rfl

private theorem filledSteps_group (members : List SelectItem) (parameters : List RawParameter)
    (span : Span) (rest : List SelectStep) :
    FilledSteps (.group members parameters span :: rest) ↔
      (members ≠ [] ∧ Filled members) ∧ FilledSteps rest := by
  have hempty : (SelectStep.group members parameters span).isEmptyGroup = false ↔ members ≠ [] := by
    cases members <;> simp [SelectStep.isEmptyGroup]
  rw [FilledSteps, SelectStep.allStepsList, List.forall_mem_append, SelectStep.allSteps,
    List.forall_mem_cons, hempty]
  rfl

/-- One item of a list, at any depth of groups, is replaced by others. -/
inductive Replaces (rule : SelectItem → List SelectItem → Prop) :
    List SelectItem → List SelectItem → Prop where
  | here {item : SelectItem} {items : List SelectItem} (front rest : List SelectItem)
      (h : rule item items) : Replaces rule (front ++ item :: rest) (front ++ (items ++ rest))
  | inside {members members' : List SelectItem} (front : List SelectItem)
      (before : List SelectStep) (parameters : List RawParameter) (brackets : Span)
      (behind : List SelectStep) (span : Span) (rest : List SelectItem)
      (h : Replaces rule members members') :
      Replaces rule
        (front ++ .chain (before ++ .group members parameters brackets :: behind) span :: rest)
        (front ++ .chain (before ++ .group members' parameters brackets :: behind) span :: rest)

/-- The last steps of a chain, or all, or none, in a group of their own. The spans of what is new may
be any. -/
inductive TailGrouped : SelectItem → List SelectItem → Prop where
  | intro (front tail : List SelectStep) (span span' inner brackets : Span) :
      TailGrouped (.chain (front ++ tail) span)
        [.chain (front ++ [.group [.chain tail inner] [] brackets]) span']

/-- A chain through a group as two chains, each through some of the members. -/
inductive FanSplit : SelectItem → List SelectItem → Prop where
  | intro (front : List SelectStep) (left right : List SelectItem) (parameters : List RawParameter)
      (behind : List SelectStep) (span leftSpan rightSpan brackets leftBrackets rightBrackets : Span)
      (hleft : left ≠ []) (hright : right ≠ []) :
      FanSplit (.chain (front ++ .group (left ++ right) parameters brackets :: behind) span)
        [.chain (front ++ .group left parameters leftBrackets :: behind) leftSpan,
          .chain (front ++ .group right parameters rightBrackets :: behind) rightSpan]

/-- The paths through a group between other steps. -/
private def through (before : List SelectStep) (parameters : List RawParameter)
    (behind : List SelectStep) (paths : List LinkPath) : List LinkPath :=
  LinkPath.joinAll (SelectStep.product before)
    (LinkPath.joinAll (paths.map (LinkPath.addParameters parameters)) (SelectStep.product behind))

private theorem described_through (before behind : List SelectStep) (members : List SelectItem)
    (parameters : List RawParameter) (brackets span : Span) :
    (SelectItem.chain (before ++ .group members parameters brackets :: behind) span).described =
      through before parameters behind (describedList members) := by
  rw [described, SelectStep.product_append, SelectStep.product, SelectStep.described, through]

theorem TailGrouped.described {item : SelectItem} {items : List SelectItem}
    (h : TailGrouped item items) : describedList items = item.described := by
  obtain ⟨front, tail, span, span', inner, brackets⟩ := h
  have hmember : (describedList [.chain tail inner]).map (LinkPath.addParameters []) =
      SelectStep.product tail := by
    rw [describedList, describedList, List.append_nil, SelectItem.described]
    exact (List.map_congr_left fun path _ => LinkPath.addParameters_nil path).trans (List.map_id _)
  rw [describedList, describedList, List.append_nil, described_through, through, hmember,
    SelectStep.product, LinkPath.joinAll_nil_right, SelectItem.described,
    SelectStep.product_append]

theorem FanSplit.described {item : SelectItem} {items : List SelectItem} (h : FanSplit item items) :
    (describedList items).Perm item.described := by
  obtain ⟨front, left, right, parameters, behind⟩ := h
  rw [describedList, describedList, describedList, List.append_nil, described_through,
    described_through, described_through, describedList_append]
  simp only [through, List.map_append, LinkPath.append_joinAll]
  exact (LinkPath.joinAll_append_perm _ _ _).symm

/-- A rule of rewriting neither makes an empty group nor takes one away. -/
private def KeepsFilled (rule : SelectItem → List SelectItem → Prop) : Prop :=
  ∀ item items, rule item items → items ≠ [] ∧ (Filled items ↔ Filled [item])

private theorem keepsFilled_tailGrouped : KeepsFilled TailGrouped := by
  rintro _ _ ⟨front, tail, span, span', inner, brackets⟩
  refine ⟨by simp, ?_⟩
  simp only [filled_cons, filledSteps_append, filledSteps_group]
  simp [filled_nil, filledSteps_nil]

private theorem keepsFilled_fanSplit : KeepsFilled FanSplit := by
  rintro _ _ ⟨front, left, right, parameters, behind, _, _, _, _, _, _, hleft, hright⟩
  refine ⟨by simp, ?_⟩
  simp only [filled_cons, filledSteps_append, filledSteps_group, filled_append]
  simp [filled_nil, hleft, hright]
  tauto

section Replaces

variable {rule : SelectItem → List SelectItem → Prop} {items items' : List SelectItem}

private theorem Replaces.ne_nil (hrule : KeepsFilled rule) (h : Replaces rule items items') :
    items ≠ [] ∧ items' ≠ [] := by
  cases h with
  | here front rest h => simp [(hrule _ _ h).1]
  | inside => simp

private theorem Replaces.filled_iff (hrule : KeepsFilled rule) (h : Replaces rule items items') :
    Filled items ↔ Filled items' := by
  induction h with
  | here front rest h =>
      rw [filled_append, filled_append, filled_append, (hrule _ _ h).2, ← filled_append [_] rest]
      rfl
  | inside front before parameters brackets behind span rest h ih =>
      obtain ⟨hne, hne'⟩ := h.ne_nil hrule
      simp only [filled_append, filled_cons, filledSteps_append, filledSteps_group, ih]
      simp [hne, hne']

end Replaces

theorem Replaces.described_eq {items items' : List SelectItem}
    (h : Replaces TailGrouped items items') : describedList items = describedList items' := by
  induction h with
  | here front rest h =>
      rw [describedList_append, describedList_append, describedList_append, describedList,
        h.described]
  | inside front before parameters brackets behind span rest h ih =>
      rw [describedList_append, describedList_append, describedList, describedList,
        described_through, described_through, ih]

theorem Replaces.described_perm {items items' : List SelectItem}
    (h : Replaces FanSplit items items') :
    (describedList items).Perm (describedList items') := by
  induction h with
  | here front rest h =>
      rw [describedList_append, describedList_append, describedList_append, describedList]
      exact (h.described.symm.append_right _).append_left _
  | inside front before parameters brackets behind span rest h ih =>
      rw [describedList_append, describedList_append, describedList, describedList,
        described_through, described_through]
      have hthrough := LinkPath.joinAll_perm (.refl (SelectStep.product before))
        (LinkPath.joinAll_perm (ih.map (LinkPath.addParameters parameters))
          (.refl (SelectStep.product behind)))
      exact (hthrough.append_right _).append_left _

end SelectItem

namespace SelectTree

/-- Short-hands and their long forms select the same. With the last steps of a chain in a group of
their own the tree is the very same, and there is one as before. With a chain through a group as two
chains it is the same up to the order of tables. -/
theorem ofItems_shortHands (items items' : List SelectItem) (source : String)
    (settings : SelectSettings) :
    (SelectItem.Replaces SelectItem.TailGrouped items items' → ∀ tree,
      ofItems items source settings = .ok tree ↔ ofItems items' source settings = .ok tree) ∧
    (SelectItem.Replaces SelectItem.FanSplit items items' →
      SameOutcome same (ofItems items source settings) (ofItems items' source settings)) := by
  constructor
  · intro h tree
    unfold ofItems
    rw [insertItems_eq_ok, insertItems_eq_ok, h.described_eq]
    exact and_congr_left fun _ => h.filled_iff SelectItem.keepsFilled_tailGrouped
  · intro h
    have hpaths := h.described_perm
    have hfilled := h.filled_iff SelectItem.keepsFilled_fanSplit
    have hshort : (∀ path ∈ SelectItem.describedList items, path.length ≤ settings.maxDepth) ↔
        ∀ path ∈ SelectItem.describedList items', path.length ≤ settings.maxDepth :=
      forall_congr' fun path => imp_congr_left hpaths.mem_iff
    have hsame : SameOutcome same
        (insertPaths settings source (SelectItem.describedList items) [])
        (insertPaths settings source (SelectItem.describedList items') []) :=
      insertPaths_perm hpaths
    unfold ofItems
    apply sameOutcome_of_iff
    · simp only [insertItems_eq_ok, exists_and_left]
      exact and_congr hfilled (and_congr hshort hsame.exists_iff)
    · intro tree tree' htree htree'
      exact hsame.same (insertItems_eq_ok.mp htree).2.2 (insertItems_eq_ok.mp htree').2.2

private def unplaced (name : String) : SelectStep := .named ⟨name, .point 0⟩ []

/-- `b(limit=2).c` -/
private def limitedTail : List SelectStep :=
  [.named ⟨"b", .point 0⟩ [⟨⟨"limit", .point 0⟩, ⟨"2", .point 0⟩⟩], unplaced "c"]

/-- `a[…](id=7).x` -/
private def fanThrough (members : List SelectItem) : SelectItem :=
  .chain ([unplaced "a"] ++
    .group members [⟨⟨"id", .point 0⟩, ⟨"7", .point 0⟩⟩] (.point 0) :: [unplaced "x"]) (.point 0)

/-- `a.b(limit=2).c` and `a[b(limit=2).c]`, then `e,a[b,c,d](id=7).x` and
`e,a[b](id=7).x,a[c,d](id=7).x`. -/
theorem ofItems_shortHands_fanOut :
    let alone := fun name => SelectItem.chain [unplaced name] (.point 0)
    let chained : List SelectItem := [.chain ([unplaced "a"] ++ limitedTail) (.point 0)]
    let grouped : List SelectItem :=
      [.chain ([unplaced "a"] ++ [.group [.chain limitedTail (.point 0)] [] (.point 0)]) (.point 0)]
    let fan := [alone "e", fanThrough ([alone "b"] ++ [alone "c", alone "d"])]
    let split := [alone "e", fanThrough [alone "b"], fanThrough [alone "c", alone "d"]]
    (ofItems chained "" .initial).isOk = true ∧
    (∀ tree, ofItems chained "" .initial = .ok tree ↔ ofItems grouped "" .initial = .ok tree) ∧
    (ofItems fan "" .initial).isOk = true ∧
    SameOutcome same (ofItems fan "" .initial) (ofItems split "" .initial) := by
  intro alone chained grouped fan split
  have hgrouped : SelectItem.Replaces SelectItem.TailGrouped chained grouped :=
    .here [] [] (SelectItem.TailGrouped.intro [unplaced "a"] limitedTail _ _ _ _)
  have hsplit : SelectItem.FanSplit (fanThrough ([alone "b"] ++ [alone "c", alone "d"]))
      [fanThrough [alone "b"], fanThrough [alone "c", alone "d"]] :=
    .intro [unplaced "a"] [alone "b"] [alone "c", alone "d"] _ _ _ _ _ _ _ _ (by simp) (by simp)
  refine ⟨by decide +kernel, ?_, by decide +kernel, ?_⟩
  · exact (ofItems_shortHands chained grouped "" .initial).1 hgrouped
  · exact (ofItems_shortHands fan split "" .initial).2 (.here [alone "e"] [] hsplit)

end SelectTree

end RequestQuery
