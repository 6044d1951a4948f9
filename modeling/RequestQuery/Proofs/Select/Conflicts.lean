import RequestQuery.Proofs.Select.Absorption
import Mathlib.Data.List.Find

/-!
# Conflicts of a merge

Two nodes are merged unless some path that both have has parameters in both that are not the same. A
conflict names the first such path in the order in which the other node lists its own, and a parameter in
which the two nodes differ there. What was merged before the conflict has no part in it.
-/

namespace RequestQuery

namespace Parameters

variable {own other : Parameters}

def clash (own other : Parameters) : Bool :=
  !own.isEmpty && !other.isEmpty && !Table.same own other

/-- One of two tables lacks a parameter, or they have unequal values for it. -/
def Differ (own other : Parameters) (name : String) : Prop :=
  match own.find? name, other.find? name with
  | some value, some value' => (value == value') = false
  | some _, none => True
  | none, some _ => True
  | none, none => False

theorem clash_eq_true_iff :
    own.clash other = true ↔ own ≠ [] ∧ other ≠ [] ∧ Table.same own other = false := by
  simp [clash, and_assoc]

theorem merge_of_clash (h : own.clash other = true) :
    merge own other = .error (own.difference other) := by
  obtain ⟨hown, hother, hsame⟩ := clash_eq_true_iff.mp h
  simp [merge, hown, hother, hsame]

theorem merge_of_not_clash (h : own.clash other = false) :
    merge own other = .ok (if own.isEmpty then other else own) := by
  refine merge_eq_ok.mpr ⟨fun hown hother => ?_, rfl⟩
  by_contra hsame
  rw [clash_eq_true_iff.mpr ⟨hown, hother, by simpa using hsame⟩] at h
  cases h

private theorem same_of_no_difference (hown : own.keys.Nodup) (hother : other.keys.Nodup)
    (hvalues : ∀ e ∈ other, (own.find? e.1 == some e.2) = true)
    (hkeys : ∀ e ∈ own, other.has e.1 = true) : Table.same own other = true := by
  rw [Table.same_iff_rel hown hother]
  intro name
  cases hfind : other.find? name with
  | some value =>
      have hvalue := hvalues _ (Table.mem_of_find?_eq_some hfind)
      cases hfind' : own.find? name with
      | none => simp [hfind'] at hvalue
      | some value' =>
          simp only [hfind', Option.some_beq_some] at hvalue
          exact .some (BEq.symm hvalue)
  | none =>
      cases hfind' : own.find? name with
      | none => exact .none
      | some value' =>
          have hhas := hkeys _ (Table.mem_of_find?_eq_some hfind')
          simp [Table.has, hfind] at hhas

/-- The parameter that is named when tables clash is one in which they differ, so it is never the text
that stands in for none. -/
theorem differ_difference (hown : own.keys.Nodup) (hother : other.keys.Nodup)
    (h : own.clash other = true) : Differ own other (own.difference other) := by
  unfold difference
  split
  next e hfirst =>
    have hfind := Table.find?_eq_some_of_mem hother (List.mem_of_find?_eq_some hfirst)
    have hvalue := List.find?_some hfirst
    rw [Differ, hfind]
    cases hfind' : own.find? e.1 with
    | none => trivial
    | some value => simpa [hfind'] using hvalue
  next hfirst =>
    split
    next e hsecond =>
      have hfind := Table.find?_eq_some_of_mem hown (List.mem_of_find?_eq_some hsecond)
      have hlacks := List.find?_some hsecond
      have hnone : other.find? e.1 = none := by simpa [Table.has] using hlacks
      rw [Differ, hfind, hnone]
      trivial
    next hsecond =>
      have hsame : Table.same own other = true := by
        apply same_of_no_difference hown hother
        · simpa using List.find?_eq_none.mp hfirst
        · simpa using List.find?_eq_none.mp hsecond
      rw [(clash_eq_true_iff.mp h).2.2] at hsame
      cases hsame

end Parameters

namespace SelectNode

mutual
/-- The paths of a node and of all below it, a node before its children and these in their order. -/
def preorder : SelectNode → List (List String)
  | .mk _ _ children => [] :: preorderChildren children

def preorderChildren : Option (List (String × SelectNode)) → List (List String)
  | none => []
  | some entries => preorderEntries entries

def preorderEntries : List (String × SelectNode) → List (List String)
  | [] => []
  | (key, node) :: rest => node.preorder.map (key :: ·) ++ preorderEntries rest
end

/-- Both nodes have something at a path, and the parameters there clash. -/
def clashAt (own other : SelectNode) (path : List String) : Bool :=
  match own.at? path, other.at? path with
  | some below, some below' => below.parameters.clash below'.parameters
  | _, _ => false

/-- The conflict to be reported for a path. -/
def conflictAt (own other : SelectNode) (path : List String) : MergeConflict :=
  ⟨own.name :: path, match own.at? path, other.at? path with
    | some below, some below' => below.parameters.difference below'.parameters
    | _, _ => ""⟩

variable {own other : SelectNode}

theorem preorder_eq (node : SelectNode) :
    node.preorder = [] :: node.childTable.flatMap fun e => e.2.preorder.map (e.1 :: ·) := by
  have hentries : ∀ entries : SelectTree, preorderEntries entries =
      entries.flatMap fun e => e.2.preorder.map (e.1 :: ·) := by
    intro entries
    induction entries with
    | nil => rfl
    | cons e rest ih => rw [preorderEntries, List.flatMap_cons, ih]
  obtain ⟨name, parameters, children⟩ := node
  cases children with
  | none => rfl
  | some entries => exact congrArg _ (hentries entries)

theorem mem_preorder_of_at? {node below : SelectNode} {path : List String}
    (h : node.at? path = some below) : path ∈ node.preorder := by
  induction path generalizing node with
  | nil => rw [preorder_eq]; exact List.mem_cons_self
  | cons key path ih =>
      obtain ⟨child, hchild, hbelow⟩ := Option.bind_eq_some_iff.mp h
      rw [preorder_eq]
      apply List.mem_cons_of_mem
      rw [List.mem_flatMap]
      exact ⟨_, Table.mem_of_find?_eq_some hchild, List.mem_map_of_mem (ih hbelow)⟩

theorem clashAt_eq_true_iff {path : List String} :
    own.clashAt other path = true ↔ ∃ below below', own.at? path = some below ∧
      other.at? path = some below' ∧ below.parameters.clash below'.parameters = true := by
  unfold clashAt
  split
  next below below' hown hother => simp [hown, hother]
  next hnot =>
    refine ⟨nofun, ?_⟩
    rintro ⟨below, below', hown, hother, -⟩
    exact absurd hother (hnot below below' hown)

theorem clashAt_cons {key : String} {path : List String} :
    own.clashAt other (key :: path) =
      match own.childTable.find? key, other.childTable.find? key with
      | some child, some child' => child.clashAt child' path
      | _, _ => false := by
  unfold clashAt
  rw [at?, at?]
  cases own.childTable.find? key with
  | none => rfl
  | some child =>
      cases other.childTable.find? key with
      | none =>
          rw [Option.bind_some, Option.bind_none]
          cases child.at? path <;> rfl
      | some child' => rfl

theorem conflictAt_cons {key : String} {child child' : SelectNode} (path : List String)
    (h : own.childTable.find? key = some child) (h' : other.childTable.find? key = some child')
    (hname : child.name = key) :
    own.conflictAt other (key :: path) =
      { child.conflictAt child' path with path := own.name :: (child.conflictAt child' path).path } := by
  simp only [conflictAt, at?, h, h', hname, Option.bind_some]

/-- The conflict of two nodes is that of the first path of the other at which they clash. -/
theorem conflict_absorb (hown : own.WellFormed) (hother : other.WellFormed) :
    (own.absorb other).2 = (other.preorder.find? (own.clashAt other)).map (own.conflictAt other) := by
  induction other using inductionOn generalizing own with
  | step other ih =>
      rw [preorder_eq, List.find?_cons]
      cases hclash : own.parameters.clash other.parameters with
      | true =>
          have htop : own.clashAt other [] = true := hclash
          rw [absorb_of_error (Parameters.merge_of_clash hclash), htop]
          rfl
      | false =>
          have htop : own.clashAt other [] = false := hclash
          obtain ⟨hnodup, hchildren⟩ := SelectTree.wellFormed_iff.mp hother.childTable
          rw [absorb_of_ok (Parameters.merge_of_not_clash hclash), htop]
          simp only
          rw [conflict_absorbEntries hnodup, List.find?_flatMap, List.map_findSome?,
            List.map_findSome?]
          apply findSome?_congr
          intro e he
          have hfind := Table.find?_eq_some_of_mem hnodup he
          simp only [Function.comp_apply, List.find?_map, Option.map_map]
          cases hexisting : own.childTable.find? e.1 with
          | none =>
              have hnone : e.2.preorder.find? (fun path => own.clashAt other (e.1 :: path)) = none := by
                rw [List.find?_eq_none]
                intro path _
                simp [clashAt_cons, hexisting]
              rw [hnone]
              rfl
          | some existing =>
              obtain ⟨hname, hwell⟩ := hown.childTable.find? hexisting
              have hclashes : (fun path => own.clashAt other (e.1 :: path)) = existing.clashAt e.2 := by
                funext path
                simp only [clashAt_cons, hexisting, hfind]
              rw [Option.bind_some, ih e he hwell (hchildren e he).2, hclashes, Option.map_map]
              congr 1
              funext path
              exact (conflictAt_cons path hexisting hfind hname).symm

theorem find?_clashAt_eq_none :
    other.preorder.find? (own.clashAt other) = none ↔ ∀ path, own.clashAt other path = false := by
  rw [List.find?_eq_none]
  constructor
  · intro h path
    rw [Bool.eq_false_iff]
    intro hclash
    obtain ⟨-, below, -, hbelow, -⟩ := clashAt_eq_true_iff.mp hclash
    exact h path (mem_preorder_of_at? hbelow) hclash
  · intro h path _
    rw [h path]
    exact Bool.false_ne_true

theorem merge_eq_ok_iff (hown : own.WellFormed) (hother : other.WellFormed) {node : SelectNode} :
    own.merge other = .ok node ↔
      (∀ path, own.clashAt other path = false) ∧ node = (own.absorb other).1 := by
  have hconflict := conflict_absorb hown hother
  rw [← find?_clashAt_eq_none, ← Option.map_eq_none_iff, ← hconflict, merge]
  obtain ⟨merged, conflict⟩ := own.absorb other
  cases conflict <;> simp [eq_comm]

theorem merge_eq_error_iff (hown : own.WellFormed) (hother : other.WellFormed)
    {conflict : MergeConflict} :
    own.merge other = .error conflict ↔
      ∃ path, other.preorder.find? (own.clashAt other) = some path ∧
        own.conflictAt other path = conflict := by
  have hconflict := conflict_absorb hown hother
  rw [← Option.map_eq_some_iff, ← hconflict, merge]
  obtain ⟨merged, conflict'⟩ := own.absorb other
  cases conflict' <;> simp

/-- Nodes fail to merge exactly if they have parameters at some path of both that are not the same. The
conflict is about the first such path of the other node and names a parameter in which the nodes, as they
were given, differ there. -/
theorem merge_conflict_named (hown : own.WellFormed) (hother : other.WellFormed) :
    ((∃ conflict, own.merge other = .error conflict) ↔ ∃ path below below',
      own.at? path = some below ∧ other.at? path = some below' ∧ below.parameters ≠ [] ∧
        below'.parameters ≠ [] ∧ Table.same below.parameters below'.parameters = false) ∧
    ∀ conflict, own.merge other = .error conflict → ∃ before path after below below',
      other.preorder = before ++ path :: after ∧
      (∀ earlier ∈ before, own.clashAt other earlier = false) ∧
      conflict.path = own.name :: path ∧ own.at? path = some below ∧ other.at? path = some below' ∧
      below.parameters.clash below'.parameters = true ∧
      Parameters.Differ below.parameters below'.parameters conflict.parameter := by
  simp only [merge_eq_error_iff hown hother]
  constructor
  · simp only [← Parameters.clash_eq_true_iff, ← clashAt_eq_true_iff]
    constructor
    · rintro ⟨-, path, hfirst, -⟩
      exact ⟨path, List.find?_some hfirst⟩
    · rintro ⟨path, hclash⟩
      cases hfirst : other.preorder.find? (own.clashAt other) with
      | some first => exact ⟨_, first, rfl, rfl⟩
      | none =>
          rw [find?_clashAt_eq_none.mp hfirst path] at hclash
          cases hclash
  · rintro conflict ⟨path, hfirst, rfl⟩
    obtain ⟨hclash, before, after, hpreorder, hbefore⟩ := List.find?_eq_some_iff_append.mp hfirst
    obtain ⟨below, below', hbelow, hbelow', hparameters⟩ := clashAt_eq_true_iff.mp hclash
    refine ⟨before, path, after, below, below', hpreorder, by simpa using hbefore, rfl, hbelow,
      hbelow', hparameters, ?_⟩
    simp only [conflictAt, hbelow, hbelow']
    exact Parameters.differ_difference (hown.at? hbelow).parameters (hother.at? hbelow').parameters
      hparameters

/-- `a[b(x=1)(y=2),c]` and `a[d,c(y=2),b(x=1)]`: `c` takes over a parameter before `b` is met. -/
private def missingOwn : SelectNode :=
  .mk "a" [] (some [("b", .mk "b" [("x", .raw "1"), ("y", .raw "2")] none), ("c", .bare "c")])

private def missingOther : SelectNode :=
  .mk "a" [] (some [("d", .bare "d"), ("c", .mk "c" [("y", .raw "2")] none),
    ("b", .mk "b" [("x", .raw "1")] none)])

theorem merge_conflict_named_missing :
    missingOwn.WellFormed ∧ missingOther.WellFormed ∧
    missingOwn.merge missingOther = .error ⟨["a", "b"], "y"⟩ ∧
    (missingOwn.absorb missingOther).1.preorder = [[], ["b"], ["c"], ["d"]] ∧
    ∃ before path after below below', missingOther.preorder = before ++ path :: after ∧
      (∀ earlier ∈ before, missingOwn.clashAt missingOther earlier = false) ∧
      ["a", "b"] = missingOwn.name :: path ∧ missingOwn.at? path = some below ∧
      missingOther.at? path = some below' ∧
      below.parameters.clash below'.parameters = true ∧
      Parameters.Differ below.parameters below'.parameters "y" := by
  have hown : missingOwn.WellFormed := by
    simp [missingOwn, WellFormed, WellFormedChildren, WellFormedEntries, Table.keys, bare, name]
  have hother : missingOther.WellFormed := by
    simp [missingOther, WellFormed, WellFormedChildren, WellFormedEntries, Table.keys, bare, name]
  have hmerge : missingOwn.merge missingOther = .error ⟨["a", "b"], "y"⟩ := rfl
  exact ⟨hown, hother, hmerge, by decide, (merge_conflict_named hown hother).2 _ hmerge⟩

end SelectNode

end RequestQuery
