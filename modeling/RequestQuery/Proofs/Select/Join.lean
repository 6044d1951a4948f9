import RequestQuery.Proofs.Select.Spots

/-!
# Merging is a partial join

Up to the order of tables merging is idempotent, commutative and associative, with failure as one more
outcome, so nodes may be put into a tree in any order. Nodes are merged one after another exactly if at no
path two of them have different parameters, and what they come to there does not depend on the order.
-/

namespace RequestQuery

namespace SelectNode

def mergeAll (own : SelectNode) (others : List SelectNode) : Except MergeConflict SelectNode :=
  others.foldlM merge own

def spotsAt (path : List String) (nodes : List SelectNode) : List (Option Spot) :=
  nodes.map fun node => node.spot? path

/-- Nodes have no two tables of parameters at one path that differ. -/
def Agree (nodes : List SelectNode) : Prop :=
  ∀ path, Parameters.AllSame ((spotsAt path nodes).map Spot.parametersOf)

/-- A node is what others come to, in their order. -/
structure Sums (node : SelectNode) (nodes : List SelectNode) : Prop where
  wellFormed : node.WellFormed
  spots : ∀ path, node.spot? path = Spot.joinAll (spotsAt path nodes)

section Several

variable {node other : SelectNode} {nodes others : List SelectNode}

theorem Agree.of_subset (h : Agree nodes) (hsubset : others ⊆ nodes) : Agree others := by
  intro path own hown other hother
  have hmem : (spotsAt path others).map Spot.parametersOf ⊆ (spotsAt path nodes).map Spot.parametersOf :=
    List.map_subset _ (List.map_subset _ hsubset)
  exact h path own (hmem hown) other (hmem hother)

theorem agree_singleton (h : node.WellFormed) : Agree [node] := by
  intro path own hown other hother _ _
  rw [List.mem_singleton.mp hown, List.mem_singleton.mp hother]
  exact Table.same_refl (h.nodup_spot? path)

theorem Sums.singleton (h : node.WellFormed) : Sums node [node] := ⟨h, fun _ => rfl⟩

theorem Sums.agree_iff (h : node.Sums nodes) (hnodes : ∀ n ∈ nodes ++ [other], n.WellFormed)
    (hagree : Agree nodes) :
    Agree (nodes ++ [other]) ↔ ∀ path, node.clashAt other path = false := by
  refine forall_congr' fun path => ?_
  have hspots : (spotsAt path (nodes ++ [other])).map Spot.parametersOf =
      (spotsAt path nodes).map Spot.parametersOf ++ [Spot.parametersOf (other.spot? path)] := by
    simp [spotsAt]
  have hnodup : ∀ table ∈ (spotsAt path (nodes ++ [other])).map Spot.parametersOf,
      table.keys.Nodup := by
    simp only [spotsAt, List.map_map, List.forall_mem_map]
    exact fun n hn => (hnodes n hn).nodup_spot? path
  rw [hspots] at hnodup ⊢
  rw [Parameters.allSame_append_singleton hnodup, ← Spot.parametersOf_joinAll, ← h.spots path,
    clashAt_eq, and_iff_right (hagree path), ← Bool.not_eq_true, Parameters.clash_eq_true_iff]
  simp

theorem Sums.merge (h : node.Sums nodes) (hother : other.WellFormed) {merged : SelectNode}
    (hmerge : node.merge other = .ok merged) :
    merged.Sums (nodes ++ [other]) ∧ merged.name = node.name := by
  obtain ⟨hclash, rfl⟩ := (merge_eq_ok_iff h.wellFormed hother).mp hmerge
  have hnone : (node.absorb other).2 = none := by
    rw [conflict_absorb h.wellFormed hother, find?_clashAt_eq_none.mpr hclash]
    rfl
  obtain ⟨hwell, hspots⟩ := spot?_absorb h.wellFormed hother hnone
  refine ⟨⟨hwell, fun path => ?_⟩, name_absorb node other⟩
  rw [hspots path, h.spots path, ← Spot.joinAll_append_singleton, spotsAt, spotsAt, List.map_append]
  rfl

theorem Sums.exists_merge_iff (h : node.Sums nodes) (hnodes : ∀ n ∈ nodes ++ [other], n.WellFormed)
    (hagree : Agree nodes) :
    (∃ merged, node.merge other = .ok merged) ↔ Agree (nodes ++ [other]) := by
  have hother : other.WellFormed := hnodes other (by simp)
  rw [h.agree_iff hnodes hagree]
  simp only [merge_eq_ok_iff h.wellFormed hother, exists_and_left, exists_eq, and_true]

/-- Nodes one after another are merged exactly if they agree, and the result is what they come to. -/
theorem Sums.mergeAll (h : node.Sums nodes) (hnodes : ∀ n ∈ nodes ++ others, n.WellFormed)
    (hagree : Agree nodes) :
    ((∃ result, node.mergeAll others = .ok result) ↔ Agree (nodes ++ others)) ∧
      ∀ result, node.mergeAll others = .ok result →
        result.Sums (nodes ++ others) ∧ result.name = node.name := by
  induction others generalizing node nodes with
  | nil =>
      rw [List.append_nil]
      refine ⟨iff_of_true ⟨node, rfl⟩ hagree, ?_⟩
      rintro _ ⟨⟩
      exact ⟨h, rfl⟩
  | cons other others ih =>
      have hcons : nodes ++ other :: others = nodes ++ [other] ++ others := by simp
      rw [hcons] at hnodes ⊢
      have hfront : ∀ n ∈ nodes ++ [other], n.WellFormed :=
        fun n hn => hnodes n (List.mem_append_left _ hn)
      have hmerge := h.exists_merge_iff hfront hagree
      rw [SelectNode.mergeAll, List.foldlM_cons]
      cases hstep : node.merge other with
      | error conflict =>
          have hnot : ¬Agree (nodes ++ [other] ++ others) := by
            intro hall
            obtain ⟨merged, hmerged⟩ := hmerge.mpr (hall.of_subset (List.subset_append_left ..))
            rw [hstep] at hmerged
            cases hmerged
          exact ⟨iff_of_false (by rintro ⟨_, ⟨⟩⟩) hnot, by rintro _ ⟨⟩⟩
      | ok merged =>
          obtain ⟨hsums, hname⟩ := h.merge (hfront other (by simp)) hstep
          rw [← hname]
          exact ih hsums hnodes (hmerge.mp ⟨merged, hstep⟩)

end Several

end SelectNode

/-- Both outcomes are failures, or both are results that are equal. -/
def SameOutcome {ε α : Type} (same : α → α → Bool) (left right : Except ε α) : Prop :=
  Option.Rel (fun a b => same a b = true) left.toOption right.toOption

theorem sameOutcome_of_iff {ε α : Type} {same : α → α → Bool} {left right : Except ε α}
    (hiff : (∃ a, left = .ok a) ↔ ∃ b, right = .ok b)
    (hsame : ∀ a b, left = .ok a → right = .ok b → same a b = true) :
    SameOutcome same left right := by
  cases left with
  | ok a =>
      obtain ⟨b, rfl⟩ := hiff.mp ⟨a, rfl⟩
      exact .some (hsame a b rfl rfl)
  | error e =>
      cases right with
      | ok b => obtain ⟨a, ha⟩ := hiff.mpr ⟨b, rfl⟩; cases ha
      | error e' => exact .none

namespace SelectNode

theorem mergeAll_perm {own own' : SelectNode} {others others' : List SelectNode}
    (hperm : (own :: others).Perm (own' :: others')) (hnodes : ∀ n ∈ own :: others, n.WellFormed)
    (hname : own.name = own'.name) :
    SameOutcome same (own.mergeAll others) (own'.mergeAll others') := by
  have hnodes' : ∀ n ∈ own' :: others', n.WellFormed := fun n hn => hnodes n (hperm.mem_iff.mpr hn)
  have hown := hnodes own List.mem_cons_self
  have hown' := hnodes' own' List.mem_cons_self
  obtain ⟨hok, hresult⟩ := (Sums.singleton hown).mergeAll hnodes (agree_singleton hown)
  obtain ⟨hok', hresult'⟩ := (Sums.singleton hown').mergeAll hnodes' (agree_singleton hown')
  apply sameOutcome_of_iff
  · rw [hok, hok']
    exact ⟨fun h => h.of_subset hperm.symm.subset, fun h => h.of_subset hperm.subset⟩
  · intro result result' h h'
    obtain ⟨hsums, hresultName⟩ := hresult result h
    obtain ⟨hsums', hresultName'⟩ := hresult' result' h'
    rw [same_iff_spots hsums.wellFormed hsums'.wellFormed]
    refine ⟨by rw [hresultName, hresultName', hname], fun path => ?_⟩
    rw [hsums.spots, hsums'.spots]
    exact Spot.joinAll_perm (hperm.map _) (hok.mp ⟨result, h⟩ path)

/-- A node that is merged of two others goes into a third as the two would, one after the other. -/
theorem merge_assoc {a b c : SelectNode} (ha : a.WellFormed) (hb : b.WellFormed)
    (hc : c.WellFormed) :
    SameOutcome same (a.merge b >>= fun ab => ab.merge c) (b.merge c >>= fun bc => a.merge bc) := by
  have hleft : (a.merge b >>= fun ab => ab.merge c) = a.mergeAll [b, c] := by
    simp [mergeAll]
  have hall : ∀ n ∈ [a] ++ [b, c], n.WellFormed := by simp [ha, hb, hc]
  obtain ⟨hok, hresult⟩ := (Sums.singleton ha).mergeAll hall (agree_singleton ha)
  have hpair : ∀ n ∈ [b] ++ [c], n.WellFormed := by simp [hb, hc]
  have hmerge := (Sums.singleton hb).exists_merge_iff hpair (agree_singleton hb)
  rw [hleft]
  cases hbc : b.merge c with
  | error conflict =>
      apply sameOutcome_of_iff
      · rw [hok]
        refine iff_of_false (fun hagree => ?_) (by rintro ⟨_, ⟨⟩⟩)
        obtain ⟨bc, hmerged⟩ := hmerge.mpr (hagree.of_subset (by simp))
        rw [hbc] at hmerged
        cases hmerged
      · rintro _ _ _ ⟨⟩
  | ok bc =>
      obtain ⟨hsums, -⟩ := (Sums.singleton hb).merge hc hbc
      have hagree : Agree [b, c] := hmerge.mp ⟨bc, hbc⟩
      have hbcWell := hsums.wellFormed
      -- Which of `a` and `bc` is merged into the other does not matter for success.
      have hright : (∃ result, a.merge bc = .ok result) ↔ Agree [a, b, c] := by
        have hone : ∀ n ∈ [a] ++ [bc], n.WellFormed := by simp [ha, hbcWell]
        have hother : ∀ n ∈ [bc] ++ [a], n.WellFormed := by simp [ha, hbcWell]
        have hmore : ∀ n ∈ [b, c] ++ [a], n.WellFormed := by simp [ha, hb, hc]
        calc (∃ result, a.merge bc = .ok result)
            ↔ Agree [a, bc] := (Sums.singleton ha).exists_merge_iff hone (agree_singleton ha)
          _ ↔ Agree [bc, a] := ⟨fun h => h.of_subset (by simp), fun h => h.of_subset (by simp)⟩
          _ ↔ ∃ result, bc.merge a = .ok result :=
              ((Sums.singleton hbcWell).exists_merge_iff hother (agree_singleton hbcWell)).symm
          _ ↔ Agree [b, c, a] := hsums.exists_merge_iff hmore hagree
          _ ↔ Agree [a, b, c] := ⟨fun h => h.of_subset (by simp), fun h => h.of_subset (by simp)⟩
      apply sameOutcome_of_iff
      · rw [hok]
        exact hright.symm
      · intro result result' h h'
        obtain ⟨hresultSums, hname⟩ := hresult result h
        obtain ⟨hresultSums', hname'⟩ := (Sums.singleton ha).merge hbcWell h'
        rw [same_iff_spots hresultSums.wellFormed hresultSums'.wellFormed]
        refine ⟨hname.trans hname'.symm, fun path => ?_⟩
        have hspots : result'.spot? path = result.spot? path := by
          rw [hresultSums.spots, hresultSums'.spots]
          show Spot.join (a.spot? path) (bc.spot? path) =
            Spot.join (Spot.join (a.spot? path) (b.spot? path)) (c.spot? path)
          rw [hsums.spots, Spot.join_assoc]
          rfl
        rw [hspots, Spot.rel_same_iff]
        exact ⟨rfl, Table.same_refl (hresultSums.wellFormed.nodup_spot? path), rfl⟩

private theorem absorbEntries_of_found {own others : SelectTree}
    (h : ∀ e ∈ others, own.find? e.1 = some e.2 ∧ e.2.absorb e.2 = (e.2, none)) :
    absorbEntries own others = (own, none) := by
  induction others with
  | nil => rfl
  | cons e rest ih =>
      rw [List.forall_mem_cons] at h
      obtain ⟨⟨hfind, hself⟩, hrest⟩ := h
      rw [absorbEntries, hfind]
      simp only [hself]
      rw [Table.put_of_find? hfind]
      exact ih hrest

theorem absorb_self {node : SelectNode} (h : node.WellFormed) : node.absorb node = (node, none) := by
  induction node using inductionOn with
  | step node ih =>
      obtain ⟨hkeys, hchildren⟩ := SelectTree.wellFormed_iff.mp h.childTable
      have hmerge : Parameters.merge node.parameters node.parameters = .ok node.parameters :=
        Parameters.merge_eq_ok.mpr ⟨fun _ _ => Table.same_refl h.parameters, by simp⟩
      have hentries : absorbEntries node.childTable node.childTable = (node.childTable, none) :=
        absorbEntries_of_found fun e he =>
          ⟨Table.find?_eq_some_of_mem hkeys he, ih e he (hchildren e he).2⟩
      rw [absorb_of_ok hmerge, hentries]
      obtain ⟨name, parameters, children⟩ := node
      cases children with
      | none => rfl
      | some entries =>
          have htable : absorbEntries entries entries = (entries, none) := hentries
          simp [SelectNode.name, SelectNode.parameters, SelectNode.children, childTable, htable]

end SelectNode

namespace SelectTree

def insertAll (tree : SelectTree) (nodes : List SelectNode) : Except MergeConflict SelectTree :=
  nodes.foldlM insertMerged tree

/-- A tree as what stands below a node without name. -/
def root (tree : SelectTree) : SelectNode := .mk "" [] (some tree)

def alone (node : SelectNode) : SelectTree := [(node.name, node)]

theorem absorbEntries_alone (tree : SelectTree) (node : SelectNode) :
    SelectNode.absorbEntries tree (alone node) = tree.absorb node := by
  rw [alone, SelectNode.absorbEntries, absorb]
  cases tree.find? node.name with
  | none => rfl
  | some existing =>
      simp only
      cases (existing.absorb node).2 <;> rfl

/-- Putting a node into a tree is merging the tree of that node alone. -/
theorem toOption_insertMerged (tree : SelectTree) (node : SelectNode) :
    (tree.root.merge (alone node).root).toOption = (tree.insertMerged node).toOption.map root := by
  have hroot : tree.root.absorb (alone node).root = (root (tree.absorb node).1,
      (tree.absorb node).2.map fun conflict => { conflict with path := "" :: conflict.path }) := by
    rw [← absorbEntries_alone]
    exact SelectNode.absorb_of_ok (Parameters.merge_of_not_clash rfl)
  rw [SelectNode.merge, insertMerged, hroot]
  obtain ⟨result, conflict⟩ := tree.absorb node
  cases conflict <;> rfl

theorem toOption_insertAll (tree : SelectTree) (nodes : List SelectNode) :
    (tree.root.mergeAll (nodes.map fun node => (alone node).root)).toOption =
      (tree.insertAll nodes).toOption.map root := by
  induction nodes generalizing tree with
  | nil => rfl
  | cons node nodes ih =>
      have hstep := toOption_insertMerged tree node
      rw [insertAll, List.foldlM_cons, List.map_cons, SelectNode.mergeAll, List.foldlM_cons]
      cases hinsert : tree.insertMerged node with
      | error conflict =>
          rw [hinsert] at hstep
          cases hmerge : tree.root.merge (alone node).root with
          | error conflict' => rfl
          | ok result =>
              rw [hmerge] at hstep
              cases hstep
      | ok tree' =>
          rw [hinsert] at hstep
          cases hmerge : tree.root.merge (alone node).root with
          | error conflict' =>
              rw [hmerge] at hstep
              cases hstep
          | ok result =>
              rw [hmerge] at hstep
              cases hstep
              exact ih tree'

theorem WellFormed.root {tree : SelectTree} (h : tree.WellFormed) : tree.root.WellFormed :=
  SelectNode.wellFormed_iff.mpr ⟨List.nodup_nil, h⟩

theorem same_root (tree other : SelectTree) : tree.root.same other.root = tree.same other := by
  simp [root, SelectNode.same, same, SelectNode.name, SelectNode.parameters, SelectNode.children,
    Table.same]

theorem insertAll_perm {tree : SelectTree} (htree : tree.WellFormed)
    {nodes nodes' : List SelectNode} (hnodes : ∀ node ∈ nodes, node.WellFormed)
    (hperm : nodes.Perm nodes') :
    SameOutcome same (tree.insertAll nodes) (tree.insertAll nodes') := by
  have halone : ∀ n ∈ tree.root :: nodes.map fun node => (alone node).root, n.WellFormed := by
    rw [List.forall_mem_cons, List.forall_mem_map]
    refine ⟨htree.root, fun node hnode => WellFormed.root ?_⟩
    simpa [wellFormed_iff, alone, Table.keys] using hnodes node hnode
  have hroots := SelectNode.mergeAll_perm ((hperm.map fun node => (alone node).root).cons tree.root)
    halone rfl
  unfold SameOutcome at hroots ⊢
  rw [toOption_insertAll, toOption_insertAll] at hroots
  generalize (tree.insertAll nodes).toOption = result,
    (tree.insertAll nodes').toOption = result' at hroots ⊢
  cases result <;> cases result' <;> cases hroots
  case none.none => exact .none
  case some.some result result' hsame => exact .some (same_root result result' ▸ hsame)

end SelectTree

namespace SelectNode

/-- Merging nodes of one name is idempotent, commutative and associative up to the order of tables, in
its failures too. So a tree takes in nodes in any order, or in none. -/
theorem merge_partial_join {a b c : SelectNode} (ha : a.WellFormed) (hb : b.WellFormed)
    (hc : c.WellFormed) (hname : a.name = b.name) :
    a.merge a = .ok a ∧ SameOutcome same (a.merge b) (b.merge a) ∧
    SameOutcome same (a.merge b >>= fun ab => ab.merge c) (b.merge c >>= fun bc => a.merge bc) ∧
    ∀ tree : SelectTree, tree.WellFormed → ∀ nodes nodes' : List SelectNode,
      (∀ node ∈ nodes, node.WellFormed) → nodes.Perm nodes' →
        SameOutcome SelectTree.same (tree.insertAll nodes) (tree.insertAll nodes') := by
  refine ⟨by rw [merge, absorb_self ha], ?_, merge_assoc ha hb hc, ?_⟩
  · have hswap : [a, b].Perm [b, a] := List.Perm.swap b a []
    have hcomm := mergeAll_perm hswap (by simp [ha, hb]) hname
    simpa [mergeAll] using hcomm
  · intro tree htree nodes nodes' hnodes hperm
    exact SelectTree.insertAll_perm htree hnodes hperm

/-- `a(filter=price=1.2500)[x]`, the same with `1.25000` and no children, and one without parameters. -/
private def pricedNode (price : Decimal) (children : Option SelectTree) : SelectNode :=
  .mk "a" [("filter", .filter ⟨[[⟨["price"], .equal, .single (.decimal price)⟩]]⟩)] children

private def shortPriced : SelectNode :=
  pricedNode ⟨false, 12500, 4, by decide, by decide⟩ (some [("x", .bare "x")])

private def longPriced : SelectNode := pricedNode ⟨false, 125000, 5, by decide, by decide⟩ none

private def unpriced : SelectNode :=
  .mk "a" [] (some [("y", .mk "y" [("limit", .limit (.count 3))] none), ("x", .mk "x" [] (some []))])

theorem merge_partial_join_priced :
    shortPriced.WellFormed ∧ unpriced.WellFormed ∧ longPriced.WellFormed ∧
    (shortPriced.merge unpriced).isOk = true ∧
    SameOutcome same (shortPriced.merge unpriced) (unpriced.merge shortPriced) ∧
    (shortPriced.merge unpriced >>= fun node => node.merge longPriced).isOk = true ∧
    SameOutcome same (shortPriced.merge unpriced >>= fun node => node.merge longPriced)
      (unpriced.merge longPriced >>= fun node => shortPriced.merge node) ∧
    SameOutcome SelectTree.same
      (SelectTree.insertAll [] [shortPriced, .bare "b", unpriced, longPriced])
      (SelectTree.insertAll [] [longPriced, unpriced, .bare "b", shortPriced]) := by
  have hshort : shortPriced.WellFormed := by
    simp [shortPriced, pricedNode, WellFormed, WellFormedChildren, WellFormedEntries, Table.keys,
      bare, name]
  have hlong : longPriced.WellFormed := by
    simp [longPriced, pricedNode, WellFormed, WellFormedChildren, Table.keys]
  have hnone : unpriced.WellFormed := by
    simp [unpriced, WellFormed, WellFormedChildren, WellFormedEntries, Table.keys, name]
  have hbare : (bare "b").WellFormed := by simp [bare, WellFormed, WellFormedChildren, Table.keys]
  obtain ⟨-, hcomm, hassoc, htree⟩ := merge_partial_join hshort hnone hlong rfl
  refine ⟨hshort, hnone, hlong, by decide +kernel, hcomm, by decide +kernel, hassoc, ?_⟩
  exact htree [] ⟨List.nodup_nil, trivial⟩ _ _ (by simp [hshort, hlong, hnone, hbare])
    (List.reverse_perm [shortPriced, .bare "b", unpriced, longPriced]).symm

end SelectNode

end RequestQuery
