import RequestQuery.Proofs.Select.Parameters

/-!
# Merging one level at a time

What merging two nodes does is said for one level: the parameters first, then each child of the other
node by itself, since no two children have one key. Deeper levels are looked at by paths of keys.
-/

namespace RequestQuery

theorem findSome?_congr {α β : Type} {f g : α → Option β} {list : List α}
    (h : ∀ a ∈ list, f a = g a) : list.findSome? f = list.findSome? g := by
  induction list with
  | nil => rfl
  | cons a rest ih =>
      rw [List.forall_mem_cons] at h
      rw [List.findSome?_cons, List.findSome?_cons, h.1, ih h.2]

namespace SelectNode

@[elab_as_elim]
theorem inductionOn {motive : SelectNode → Prop}
    (step : ∀ node, (∀ e ∈ node.childTable, motive e.2) → motive node) : ∀ node, motive node
  | .mk name parameters none => step (.mk name parameters none) nofun
  | .mk name parameters (some entries) =>
      step (.mk name parameters (some entries)) fun e _he => inductionOn step e.2
termination_by node => sizeOf node
decreasing_by
  have hentries : sizeOf e < sizeOf entries := List.sizeOf_lt_of_mem _he
  obtain ⟨key, child⟩ := e
  simp only [Prod.mk.sizeOf_spec, mk.sizeOf_spec, Option.some.sizeOf_spec] at hentries ⊢
  omega

/-- The node at a path of keys below a node. -/
def at? (node : SelectNode) : List String → Option SelectNode
  | [] => some node
  | key :: path => (node.childTable.find? key).bind fun child => child.at? path

mutual
/-- No key is repeated, and every child stands under its own name, at all levels. -/
def WellFormed : SelectNode → Prop
  | .mk _ parameters children => (Table.keys parameters).Nodup ∧ WellFormedChildren children

def WellFormedChildren : Option (List (String × SelectNode)) → Prop
  | none => True
  | some entries => (Table.keys entries).Nodup ∧ WellFormedEntries entries

def WellFormedEntries : List (String × SelectNode) → Prop
  | [] => True
  | (key, node) :: rest => (node.name = key ∧ node.WellFormed) ∧ WellFormedEntries rest
end

end SelectNode

namespace SelectTree

/-- The nodes stand under their own names, no two of them under one. -/
def WellFormed (tree : SelectTree) : Prop := tree.keys.Nodup ∧ SelectNode.WellFormedEntries tree

theorem wellFormed_iff {tree : SelectTree} :
    tree.WellFormed ↔ tree.keys.Nodup ∧ ∀ e ∈ tree, e.2.name = e.1 ∧ e.2.WellFormed := by
  have hentries : SelectNode.WellFormedEntries tree ↔
      ∀ e ∈ tree, e.2.name = e.1 ∧ e.2.WellFormed := by
    induction tree with
    | nil => simp [SelectNode.WellFormedEntries]
    | cons e rest ih =>
        rw [List.forall_mem_cons, ← ih]
        exact Iff.rfl
  exact and_congr_right fun _ => hentries

theorem WellFormed.find? {tree : SelectTree} (h : tree.WellFormed) {key : String}
    {node : SelectNode} (hfind : Table.find? tree key = some node) :
    node.name = key ∧ node.WellFormed :=
  (wellFormed_iff.mp h).2 _ (Table.mem_of_find?_eq_some hfind)

end SelectTree

namespace SelectNode

theorem wellFormed_iff {node : SelectNode} :
    node.WellFormed ↔ node.parameters.keys.Nodup ∧ SelectTree.WellFormed node.childTable := by
  obtain ⟨name, parameters, children⟩ := node
  refine and_congr_right fun _ => ?_
  cases children with
  | none => simp [WellFormedChildren, SelectTree.WellFormed, childTable, SelectNode.children,
      Table.keys, WellFormedEntries]
  | some entries => exact Iff.rfl

theorem WellFormed.parameters {node : SelectNode} (h : node.WellFormed) :
    node.parameters.keys.Nodup := (wellFormed_iff.mp h).1

theorem WellFormed.childTable {node : SelectNode} (h : node.WellFormed) :
    SelectTree.WellFormed node.childTable := (wellFormed_iff.mp h).2

theorem WellFormed.at? {node : SelectNode} (h : node.WellFormed) {path : List String}
    {below : SelectNode} (hbelow : node.at? path = some below) : below.WellFormed := by
  induction path generalizing node with
  | nil =>
      cases hbelow
      exact h
  | cons key path ih =>
      obtain ⟨child, hchild, hbelow⟩ := Option.bind_eq_some_iff.mp hbelow
      exact ih (h.childTable.find? hchild).2 hbelow

section Level

variable {own other : SelectNode}

theorem absorb_of_error {parameter : String}
    (h : Parameters.merge own.parameters other.parameters = .error parameter) :
    own.absorb other = (own, some ⟨[own.name], parameter⟩) := by
  obtain ⟨name, parameters, children⟩ := other
  rw [absorb, show Parameters.merge own.parameters parameters = .error parameter from h]

theorem absorb_of_ok {merged : Parameters}
    (h : Parameters.merge own.parameters other.parameters = .ok merged) :
    own.absorb other =
      (.mk own.name merged (other.children.elim own.children fun others =>
          some (absorbEntries own.childTable others).1),
        (absorbEntries own.childTable other.childTable).2.map fun conflict =>
          { conflict with path := own.name :: conflict.path }) := by
  obtain ⟨name, parameters, children⟩ := own
  obtain ⟨name', parameters', children'⟩ := other
  rw [absorb, show Parameters.merge _ parameters' = .ok merged from h]
  cases children' <;> rfl

end Level

section Entries

variable {own others : SelectTree}

private theorem find?_put_of_mem {key : String} (node : SelectNode) (hkey : key ∉ others.keys)
    {e : String × SelectNode} (he : e ∈ others) :
    (Table.put own key node).find? e.1 = own.find? e.1 := by
  have hne : e.1 ≠ key := fun heq => hkey (heq ▸ List.mem_map_of_mem he)
  rw [Table.find?_put, if_neg hne]

/-- The conflict of a table is that of the first entry that has one. -/
theorem conflict_absorbEntries (hnodup : others.keys.Nodup) :
    (absorbEntries own others).2 = others.findSome? fun e =>
      (own.find? e.1).bind fun existing => (existing.absorb e.2).2 := by
  induction others generalizing own with
  | nil => rfl
  | cons e rest ih =>
      obtain ⟨key, child⟩ := e
      obtain ⟨hkey, hrest⟩ := List.nodup_cons.mp hnodup
      have hput : ∀ node, (absorbEntries (Table.put own key node) rest).2 =
          rest.findSome? fun e => (own.find? e.1).bind fun existing => (existing.absorb e.2).2 := by
        intro node
        rw [ih hrest]
        exact findSome?_congr fun e he => by rw [find?_put_of_mem node hkey he]
      rw [absorbEntries, List.findSome?_cons]
      cases own.find? key with
      | none => exact hput child
      | some existing =>
          simp only [Option.bind_some]
          cases (existing.absorb child).2 with
          | some conflict => rfl
          | none => exact hput _

/-- What stands under a key after a merge without conflict. -/
def united : Option SelectNode → Option SelectNode → Option SelectNode
  | none, other => other
  | some own, none => some own
  | some own, some other => some (own.absorb other).1

theorem find?_absorbEntries (hnodup : others.keys.Nodup)
    (hconflict : (absorbEntries own others).2 = none) (key : String) :
    Table.find? (absorbEntries own others).1 key = united (own.find? key) (others.find? key) := by
  induction others generalizing own with
  | nil => cases hfind : own.find? key <;> simp [absorbEntries, united, Table.find?, hfind]
  | cons e rest ih =>
      obtain ⟨other, child⟩ := e
      obtain ⟨hother, hrest⟩ := List.nodup_cons.mp hnodup
      have hput : ∀ node, united (own.find? other) (some child) = some node →
          (absorbEntries (Table.put own other node) rest).2 = none →
          Table.find? (absorbEntries (Table.put own other node) rest).1 key =
            united (own.find? key) (Table.find? ((other, child) :: rest) key) := by
        intro node hnode hnone
        rw [ih hrest hnone, Table.find?_put, Table.find?]
        by_cases hkey : key = other
        · have hlast : Table.find? rest key = none := Table.find?_eq_none_iff.mpr (hkey ▸ hother)
          rw [if_pos hkey, if_pos hkey.symm, hlast, hkey, hnode]
          rfl
        · rw [if_neg hkey, if_neg (Ne.symm hkey)]
      rw [absorbEntries] at hconflict ⊢
      cases hfind : own.find? other with
      | none =>
          rw [hfind] at hconflict hput
          exact hput child rfl hconflict
      | some existing =>
          rw [hfind] at hconflict hput
          simp only at hconflict ⊢
          cases hchild : (existing.absorb child).2 with
          | some conflict =>
              rw [hchild] at hconflict
              cases hconflict
          | none =>
              rw [hchild] at hconflict
              exact hput _ rfl hconflict

theorem nodup_keys_absorbEntries (hnodup : own.keys.Nodup) :
    (Table.keys (absorbEntries own others).1).Nodup := by
  induction others generalizing own with
  | nil => exact hnodup
  | cons e rest ih =>
      have hput : ∀ node, (Table.put own e.1 node).keys.Nodup :=
        fun node => Table.nodup_keys_put e.1 node hnodup
      rw [absorbEntries]
      cases own.find? e.1 with
      | none => exact ih (hput e.2)
      | some existing =>
          simp only
          cases (existing.absorb e.2).2 with
          | some conflict => exact hput _
          | none => exact ih (hput _)

end Entries

end SelectNode

end RequestQuery
