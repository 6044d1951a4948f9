import RequestQuery.Proofs.Select.Conflicts
import Mathlib.Data.List.Induction

/-!
# Nodes path by path

A node is looked at as what it has at each path: parameters, and whether there is a table of children.
Nodes are equal, their tables compared as maps, if they are equal so at all paths, and a merged node has
at each path what the parts have there.
-/

namespace RequestQuery

namespace SelectNode

mutual
/-- Equality of nodes, their tables compared as maps. -/
def same : SelectNode → SelectNode → Bool
  | .mk name parameters children, other =>
      name == other.name && Table.same parameters other.parameters &&
        sameChildren children other.children

def sameChildren : Option (List (String × SelectNode)) → Option SelectTree → Bool
  | none, none => true
  | some entries, some others => entries.length == others.length && sameEntries entries others
  | _, _ => false

/-- Every entry has an equal one under its key. -/
def sameEntries : List (String × SelectNode) → SelectTree → Bool
  | [], _ => true
  | (key, node) :: rest, others =>
      (others.find? key).any (fun other => node.same other) && sameEntries rest others
end

theorem sameEntries_iff {entries others : SelectTree} :
    sameEntries entries others = true ↔
      ∀ e ∈ entries, ∃ other, others.find? e.1 = some other ∧ e.2.same other = true := by
  induction entries with
  | nil => simp [sameEntries]
  | cons e rest ih =>
      rw [sameEntries, Bool.and_eq_true, List.forall_mem_cons, ih, Option.any_eq_true]

theorem same_iff {own other : SelectNode} :
    own.same other = true ↔
      own.name = other.name ∧ Table.same own.parameters other.parameters = true ∧
        own.children.isSome = other.children.isSome ∧
          own.childTable.length = other.childTable.length ∧ ∀ e ∈ own.childTable,
            ∃ child, other.childTable.find? e.1 = some child ∧ e.2.same child = true := by
  obtain ⟨name, parameters, children⟩ := own
  obtain ⟨name', parameters', children'⟩ := other
  rw [same, Bool.and_eq_true, Bool.and_eq_true, beq_iff_eq, and_assoc]
  refine and_congr_right fun _ => and_congr_right fun _ => ?_
  cases children with
  | none => cases children' <;> simp [sameChildren, SelectNode.children, childTable]
  | some entries =>
      cases children' with
      | none => simp [sameChildren, SelectNode.children]
      | some others =>
          simp only [sameChildren, SelectNode.children, childTable, Bool.and_eq_true, beq_iff_eq,
            sameEntries_iff, Option.isSome_some, Option.getD_some, true_and]

end SelectNode

/-- Equality of trees as maps. -/
def SelectTree.same (tree other : SelectTree) : Bool :=
  SelectNode.sameChildren (some tree) (some other)

/-- The parameters at a path, and whether there is a table of children. -/
structure Spot where
  parameters : Parameters
  parent : Bool

namespace Spot

def Same (own other : Spot) : Prop :=
  Table.same own.parameters other.parameters = true ∧ own.parent = other.parent

/-- What two parts have at a path, taken together. -/
def join : Option Spot → Option Spot → Option Spot
  | none, other => other
  | some own, none => some own
  | some own, some other =>
      some ⟨if own.parameters.isEmpty then other.parameters else own.parameters,
        own.parent || other.parent⟩

def joinAll (spots : List (Option Spot)) : Option Spot := spots.foldl join none

/-- Where nothing stands there are no parameters. -/
def parametersOf (spot : Option Spot) : Parameters := spot.elim [] parameters

theorem join_none (spot : Option Spot) : join spot none = spot := by
  cases spot <;> rfl

theorem join_assoc (own mid other : Option Spot) :
    join (join own mid) other = join own (join mid other) := by
  cases own with
  | none => rfl
  | some own =>
      cases mid with
      | none => rfl
      | some mid =>
          cases other with
          | none => rfl
          | some other =>
              simp only [join, Bool.or_assoc, Option.some.injEq, mk.injEq, and_true]
              cases own.parameters <;> rfl

theorem joinAll_append_singleton (spots : List (Option Spot)) (spot : Option Spot) :
    joinAll (spots ++ [spot]) = join (joinAll spots) spot := by
  simp [joinAll]

private theorem parametersOf_join (own other : Option Spot) :
    parametersOf (join own other) =
      if (parametersOf own).isEmpty then parametersOf other else parametersOf own := by
  cases own with
  | none => rfl
  | some own =>
      cases other with
      | none =>
          by_cases h : own.parameters = [] <;> simp [join, parametersOf, h]
      | some other => rfl

theorem parametersOf_joinAll (spots : List (Option Spot)) :
    parametersOf (joinAll spots) = Parameters.first (spots.map parametersOf) := by
  induction spots using List.reverseRecOn with
  | nil => rfl
  | append_singleton spots spot ih =>
      rw [joinAll_append_singleton, parametersOf_join, ih, List.map_append, List.map_singleton,
        Parameters.first_append_singleton]

theorem isSome_joinAll (spots : List (Option Spot)) :
    (joinAll spots).isSome = spots.any Option.isSome := by
  induction spots using List.reverseRecOn with
  | nil => rfl
  | append_singleton spots spot ih =>
      rw [joinAll_append_singleton, List.any_append, ← ih]
      cases joinAll spots <;> cases spot <;> rfl

theorem parent_joinAll (spots : List (Option Spot)) :
    (joinAll spots).any parent = spots.any fun spot => spot.any parent := by
  induction spots using List.reverseRecOn with
  | nil => rfl
  | append_singleton spots spot ih =>
      rw [joinAll_append_singleton, List.any_append, ← ih]
      cases joinAll spots <;> cases spot <;> simp [join]

theorem rel_same_iff {own other : Option Spot} :
    Option.Rel Same own other ↔ own.isSome = other.isSome ∧
      Table.same (parametersOf own) (parametersOf other) = true ∧
        own.any parent = other.any parent := by
  cases own with
  | none => cases other <;> simp [parametersOf, Table.same]
  | some own => cases other <;> simp [parametersOf, Same]

end Spot

/-- Tables that agree have the same first one that is not empty, in any order. -/
theorem Parameters.same_first_of_perm {tables tables' : List Parameters}
    (hperm : tables.Perm tables') (hagree : AllSame tables) :
    Table.same (first tables) (first tables') = true := by
  rcases first_eq_nil_or_mem tables with ⟨hnil, hall⟩ | ⟨hfirst, hmem⟩
  · rcases first_eq_nil_or_mem tables' with ⟨hnil', -⟩ | ⟨hfirst', hmem'⟩
    · rw [hnil, hnil']
      rfl
    · exact absurd (hall _ (hperm.mem_iff.mpr hmem')) hfirst'
  · rcases first_eq_nil_or_mem tables' with ⟨-, hall'⟩ | ⟨hfirst', hmem'⟩
    · exact absurd (hall' _ (hperm.mem_iff.mp hmem)) hfirst
    · exact hagree _ hmem _ (hperm.mem_iff.mpr hmem') hfirst hfirst'

theorem Spot.joinAll_perm {spots spots' : List (Option Spot)} (hperm : spots.Perm spots')
    (hagree : Parameters.AllSame (spots.map parametersOf)) :
    Option.Rel Same (joinAll spots) (joinAll spots') := by
  rw [rel_same_iff, isSome_joinAll, isSome_joinAll, parametersOf_joinAll, parametersOf_joinAll,
    parent_joinAll, parent_joinAll]
  exact ⟨hperm.any_eq, Parameters.same_first_of_perm (hperm.map _) hagree, hperm.any_eq⟩

namespace SelectNode

def spot? (node : SelectNode) (path : List String) : Option Spot :=
  (node.at? path).map fun below => ⟨below.parameters, below.children.isSome⟩

theorem spot?_cons (node : SelectNode) (key : String) (path : List String) :
    node.spot? (key :: path) = (node.childTable.find? key).bind fun child => child.spot? path := by
  rw [spot?, at?, Option.map_bind]
  rfl

theorem WellFormed.nodup_spot? {node : SelectNode} (h : node.WellFormed) (path : List String) :
    (Spot.parametersOf (node.spot? path)).keys.Nodup := by
  unfold spot?
  cases hbelow : node.at? path with
  | none => simp [Spot.parametersOf, Table.keys]
  | some below => exact (h.at? hbelow).parameters

/-- Nodes are equal if they have the same name and equal things at every path. -/
theorem same_iff_spots {own other : SelectNode} (hown : own.WellFormed)
    (hother : other.WellFormed) :
    own.same other = true ↔
      own.name = other.name ∧ ∀ path, Option.Rel Spot.Same (own.spot? path) (other.spot? path) := by
  induction own using inductionOn generalizing other with
  | step own ih =>
      obtain ⟨hkeys, -⟩ := SelectTree.wellFormed_iff.mp hown.childTable
      obtain ⟨hkeys', -⟩ := SelectTree.wellFormed_iff.mp hother.childTable
      have hchild : ∀ {key child child'}, own.childTable.find? key = some child →
          other.childTable.find? key = some child' → (child.same child' = true ↔
            ∀ path, Option.Rel Spot.Same (child.spot? path) (child'.spot? path)) := by
        intro key child child' hfind hfind'
        obtain ⟨hname, hwell⟩ := hown.childTable.find? hfind
        obtain ⟨hname', hwell'⟩ := hother.childTable.find? hfind'
        rw [ih _ (Table.mem_of_find?_eq_some hfind) hwell hwell']
        exact and_iff_right (hname.trans hname'.symm)
      rw [same_iff, Table.matched_iff (r := fun own other => own.same other = true) hkeys hkeys']
      refine and_congr_right fun _ => ⟨?_, fun h => ?_⟩
      · rintro ⟨hparameters, hparent, hchildren⟩ path
        cases path with
        | nil => exact .some ⟨hparameters, hparent⟩
        | cons key path =>
            rw [spot?_cons, spot?_cons]
            have hrel := hchildren key
            cases hfind : own.childTable.find? key <;>
              cases hfind' : other.childTable.find? key <;> rw [hfind, hfind'] at hrel
            case none.none => exact .none
            case some.some =>
              cases hrel with
              | some hsame => exact (hchild hfind hfind').mp hsame path
            all_goals cases hrel
      · obtain ⟨hparameters, hparent⟩ := Option.rel_some_some.mp (h [])
        refine ⟨hparameters, hparent, fun key => ?_⟩
        have hrel := fun path => h (key :: path)
        simp only [spot?_cons] at hrel
        cases hfind : own.childTable.find? key <;>
          cases hfind' : other.childTable.find? key <;> rw [hfind, hfind'] at hrel
        case none.none => exact .none
        case some.some => exact .some ((hchild hfind hfind').mpr hrel)
        all_goals cases hrel []

section Merging

variable {own other node : SelectNode}

theorem clashAt_eq (path : List String) :
    own.clashAt other path =
      (Spot.parametersOf (own.spot? path)).clash (Spot.parametersOf (other.spot? path)) := by
  unfold clashAt spot?
  cases own.at? path with
  | none => rfl
  | some below =>
      cases other.at? path with
      | none => simp [Spot.parametersOf, Parameters.clash]
      | some below' => rfl

theorem name_absorb (own other : SelectNode) : (own.absorb other).1.name = own.name := by
  cases hmerge : Parameters.merge own.parameters other.parameters with
  | error parameter => rw [absorb_of_error hmerge]
  | ok merged =>
      rw [absorb_of_ok hmerge]
      rfl

private theorem childTable_absorb {merged : Parameters} :
    childTable (.mk own.name merged (other.children.elim own.children fun others =>
      some (absorbEntries own.childTable others).1)) =
        (absorbEntries own.childTable other.childTable).1 := by
  obtain ⟨name, parameters, children⟩ := other
  cases children <;> rfl

private theorem spot?_united (hown : own.WellFormed) (hother : other.WellFormed) (key : String)
    (hboth : ∀ child child', own.childTable.find? key = some child →
      other.childTable.find? key = some child' → (child.absorb child').1.WellFormed ∧
        ∀ path, (child.absorb child').1.spot? path =
          Spot.join (child.spot? path) (child'.spot? path)) :
    (∀ child, united (own.childTable.find? key) (other.childTable.find? key) = some child →
      child.name = key ∧ child.WellFormed) ∧
    ∀ path, (united (own.childTable.find? key) (other.childTable.find? key)).bind
      (fun child => child.spot? path) =
        Spot.join (own.spot? (key :: path)) (other.spot? (key :: path)) := by
  simp only [spot?_cons]
  cases hfind : own.childTable.find? key with
  | none => exact ⟨fun child hchild => hother.childTable.find? hchild, fun path => rfl⟩
  | some child =>
      obtain ⟨hname, hwell⟩ := hown.childTable.find? hfind
      cases hfind' : other.childTable.find? key with
      | none =>
          refine ⟨?_, fun path => (Spot.join_none _).symm⟩
          rintro _ ⟨⟩
          exact ⟨hname, hwell⟩
      | some child' =>
          obtain ⟨hmerged, hspots⟩ := hboth child child' hfind hfind'
          refine ⟨?_, hspots⟩
          rintro _ ⟨⟩
          exact ⟨(name_absorb child child').trans hname, hmerged⟩

/-- A node merged without conflict has at every path what the two have there. -/
theorem spot?_absorb (hown : own.WellFormed) (hother : other.WellFormed)
    (h : (own.absorb other).2 = none) :
    (own.absorb other).1.WellFormed ∧
      ∀ path, (own.absorb other).1.spot? path = Spot.join (own.spot? path) (other.spot? path) := by
  induction other using inductionOn generalizing own with
  | step other ih =>
      have hkeys := hown.childTable.1
      have hkeys' := hother.childTable.1
      cases hclash : own.parameters.clash other.parameters with
      | true =>
          rw [absorb_of_error (Parameters.merge_of_clash hclash)] at h
          cases h
      | false =>
          rw [absorb_of_ok (Parameters.merge_of_not_clash hclash)] at h ⊢
          have hentries := Option.map_eq_none_iff.mp h
          have hunited : ∀ key, _ := fun key => spot?_united hown hother key <| by
            intro child child' hfind hfind'
            have hmem := Table.mem_of_find?_eq_some hfind'
            have hnone := hentries
            rw [conflict_absorbEntries hkeys', List.findSome?_eq_none_iff] at hnone
            have hchild := hnone _ hmem
            rw [hfind] at hchild
            exact ih _ hmem (hown.childTable.find? hfind).2 (hother.childTable.find? hfind').2 hchild
          rw [wellFormed_iff, childTable_absorb, SelectTree.wellFormed_iff]
          refine ⟨⟨?_, nodup_keys_absorbEntries hkeys, fun e he => ?_⟩, fun path => ?_⟩
          · show (Table.keys (if own.parameters.isEmpty then _ else _)).Nodup
            split
            · exact hother.parameters
            · exact hown.parameters
          · apply (hunited e.1).1
            rw [← find?_absorbEntries hkeys' hentries]
            exact Table.find?_eq_some_of_mem (nodup_keys_absorbEntries hkeys) he
          · cases path with
            | nil =>
                have hparent : (other.children.elim own.children fun others =>
                    some (absorbEntries own.childTable others).1).isSome =
                      (own.children.isSome || other.children.isSome) := by
                  cases other.children <;> simp
                exact congrArg some (congrArg (Spot.mk _) hparent)
            | cons key path =>
                rw [spot?_cons, childTable_absorb, find?_absorbEntries hkeys' hentries]
                exact (hunited key).2 path

end Merging

end SelectNode

end RequestQuery
