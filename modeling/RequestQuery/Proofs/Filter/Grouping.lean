import RequestQuery.Proofs.Filter.Meaning
import Mathlib.Logic.Relation

/-!
# Grouping of formulas

A group joined by the connective of the group around it, or a group of one part, makes no difference:
the formula without it spreads into the same alternatives in the same order, whatever stands in place
of the leaves. So a formula can be brought to a form without such groups, and it normalizes to the very
same filter, or error, in that form.
-/

namespace RequestQuery

open Grammar (Level)

def Grammar.Level.node {α : Type} : Level → List (Formula α) → Formula α
  | .any => .any
  | .all => .all

section Crosses

variable {α : Type}

theorem cross_append (front rest : List (List (List α))) :
    cross (front ++ rest) =
      (cross front).flatMap fun left => (cross rest).map fun right => left ++ right := by
  induction front with
  | nil => simp [cross]
  | cons part front ih =>
      simp only [List.cons_append, cross, ih, List.flatMap_assoc, List.map_flatMap,
        List.flatMap_map, List.map_map]
      simp [Function.comp_def]

theorem Grammar.Level.joins_splice (level : Level) (front inner rest : List (List (List α))) :
    level.joins (front ++ level.joins inner :: rest) = level.joins (front ++ (inner ++ rest)) := by
  cases level with
  | any => simp [Level.joins]
  | all =>
      have hcons : cross (cross inner :: rest) = cross (inner ++ rest) := by
        rw [cross, cross_append]
      simp only [Level.joins, cross_append front, hcons]

@[simp] theorem Grammar.Level.joins_singleton (level : Level) (part : List (List α)) :
    level.joins [part] = part := by
  cases level <;> simp [Level.joins]

end Crosses

namespace Formula

variable {α β γ ε : Type}

@[simp] theorem leaves_node (level : Level) (parts : List (Formula α)) :
    (level.node parts).leaves = parts.flatMap leaves := by
  cases level <;> simp [Level.node]

@[simp] theorem graft_node (g : α → Formula β) (level : Level) (parts : List (Formula α)) :
    (level.node parts).graft g = level.node (parts.map (graft g)) := by
  cases level <;> simp [Level.node]

@[simp] theorem map_node (f : α → β) (level : Level) (parts : List (Formula α)) :
    (level.node parts).map f = level.node (parts.map (map f)) := by
  cases level <;> simp [Level.node]

theorem alternatives_node (level : Level) (parts : List (Formula α)) :
    (level.node parts).alternatives = level.joins (parts.map alternatives) := by
  cases level with
  | any => simp [Level.node, Level.joins, alternatives, anyAlternatives_eq_flatMap, List.flatMap_def]
  | all => simp [Level.node, Level.joins, alternatives, allAlternatives_eq_cross]

@[elab_as_elim]
theorem inductionOnNode {motive : Formula α → Prop} (t : Formula α)
    (node : ∀ (level : Level) parts, (∀ part ∈ parts, motive part) → motive (level.node parts))
    (leaf : ∀ a, motive (.leaf a)) : motive t := by
  induction t using inductionOn with
  | any parts ih => exact node .any parts ih
  | all parts ih => exact node .all parts ih
  | leaf a => exact leaf a

/-- Two formulas have the same leaves, and the same alternatives whatever stands in place of them. -/
structure Equivalent (t t' : Formula α) : Prop where
  leaves : t.leaves = t'.leaves
  alternatives : ∀ (β : Type) (g : α → Formula β), (t.graft g).alternatives = (t'.graft g).alternatives

namespace Equivalent

theorem refl (t : Formula α) : t.Equivalent t := ⟨rfl, fun _ _ => rfl⟩

theorem symm {t t' : Formula α} (h : t.Equivalent t') : t'.Equivalent t :=
  ⟨h.leaves.symm, fun β g => (h.alternatives β g).symm⟩

theorem trans {t t' t'' : Formula α} (h : t.Equivalent t') (h' : t'.Equivalent t'') :
    t.Equivalent t'' :=
  ⟨h.leaves.trans h'.leaves, fun β g => (h.alternatives β g).trans (h'.alternatives β g)⟩

theorem splice (level : Level) (front inner rest : List (Formula α)) :
    (level.node (front ++ level.node inner :: rest)).Equivalent
      (level.node (front ++ (inner ++ rest))) := by
  constructor
  · simp
  · intro β g
    simp only [graft_node, alternatives_node, List.map_append, List.map_cons, level.joins_splice]

theorem single (level : Level) (part : Formula α) : (level.node [part]).Equivalent part := by
  constructor
  · simp
  · intro β g
    simp [alternatives_node]

theorem inside (level : Level) {part part' : Formula α} (h : part.Equivalent part')
    (front rest : List (Formula α)) :
    (level.node (front ++ part :: rest)).Equivalent (level.node (front ++ part' :: rest)) := by
  constructor
  · simp [h.leaves]
  · intro β g
    simp only [graft_node, alternatives_node, List.map_append, List.map_cons, h.alternatives β g]

theorem append {level : Level} {front front' rest rest' : List (Formula α)}
    (hfront : (level.node front).Equivalent (level.node front'))
    (hrest : (level.node rest).Equivalent (level.node rest')) :
    (level.node (front ++ rest)).Equivalent (level.node (front' ++ rest')) := by
  have hleft : (level.node (front ++ rest)).Equivalent (level.node (front' ++ rest)) :=
    ((splice level [] front rest).symm.trans (inside level hfront [] rest)).trans
      (splice level [] front' rest)
  have hright : ∀ last, (level.node (front' ++ level.node last :: [])).Equivalent
      (level.node (front' ++ last)) := by
    intro last
    simpa using splice level front' last []
  exact hleft.trans (((hright rest).symm.trans (inside level hrest front' [])).trans (hright rest'))

theorem node (level : Level) {parts parts' : List (Formula α)}
    (h : List.Forall₂ Equivalent parts parts') :
    (level.node parts).Equivalent (level.node parts') := by
  induction h with
  | nil => exact refl _
  | cons hpart _ ih => exact append (inside level hpart [] []) ih

theorem graft {t t' : Formula α} (h : t.Equivalent t') (g : α → Formula β) :
    (t.graft g).Equivalent (t'.graft g) := by
  constructor
  · rw [leaves_graft, leaves_graft, h.leaves]
  · intro γ g'
    rw [graft_graft, graft_graft]
    exact h.alternatives γ _

theorem map {t t' : Formula α} (h : t.Equivalent t') (f : α → β) :
    (t.map f).Equivalent (t'.map f) := by
  rw [map_eq_graft, map_eq_graft]
  exact h.graft _

theorem alternatives_eq {t t' : Formula α} (h : t.Equivalent t') :
    t.alternatives = t'.alternatives := by
  have hleaf : ∀ t : Formula α, t.graft .leaf = t := by
    intro t
    rw [← map_id t, map_eq_graft, graft_graft]
    simp
  rw [← hleaf t, ← hleaf t']
  exact h.alternatives α .leaf

/-- A pass over equivalent formulas is refused at the same leaf. -/
theorem refusal_traverse {t t' : Formula α} (h : t.Equivalent t') (f : α → Except ε β) :
    refusal (t.traverse f) = refusal (t'.traverse f) := by
  rw [Formula.refusal_traverse, Formula.refusal_traverse, h.leaves]

theorem traverse {t t' : Formula α} (h : t.Equivalent t') {f : α → Except ε β} {u u' : Formula β}
    (hu : t.traverse f = .ok u) (hu' : t'.traverse f = .ok u') : u.Equivalent u' := by
  have hmap := map_of_traverse_eq_ok hu
  have hmap' := map_of_traverse_eq_ok hu'
  -- The leaves of the results are told by those of the formulas, all of which have an outcome.
  have hgraft : ∀ (γ : Type) (g : β → Formula γ) (t : Formula β),
      t.graft g =
        (t.map (Except.ok : β → Except ε β)).graft fun r => r.toOption.elim (.any []) g := by
    intro γ g t
    rw [map_eq_graft, graft_graft]
    simp [Except.toOption]
  constructor
  · have hleaves : u.leaves.map (Except.ok : β → Except ε β) = u'.leaves.map .ok := by
      rw [← leaves_map, ← leaves_map, ← hmap, ← hmap', leaves_map, leaves_map, h.leaves]
    exact List.map_injective_iff.mpr (fun _ _ => Except.ok.inj) hleaves
  · intro γ g
    rw [hgraft, hgraft γ g u', ← hmap, ← hmap']
    exact (h.map f).alternatives γ _

end Equivalent

/-- One needless group is taken away, at any depth. -/
inductive Ungroups : Formula α → Formula α → Prop where
  | splice (level : Level) (front inner rest : List (Formula α)) :
      Ungroups (level.node (front ++ level.node inner :: rest)) (level.node (front ++ (inner ++ rest)))
  | single (level : Level) (part : Formula α) : Ungroups (level.node [part]) part
  | inside (level : Level) {part part' : Formula α} (h : Ungroups part part')
      (front rest : List (Formula α)) :
      Ungroups (level.node (front ++ part :: rest)) (level.node (front ++ part' :: rest))

theorem Ungroups.equivalent {t t' : Formula α} (h : Ungroups t t') : t.Equivalent t' := by
  induction h with
  | splice level front inner rest => exact .splice level front inner rest
  | single level part => exact .single level part
  | inside level _ front rest ih => exact .inside level ih front rest

/-- The parts of a node of the level; another formula is one part. -/
def partsAt : Level → Formula α → List (Formula α)
  | .any, .any parts => parts
  | .all, .all parts => parts
  | _, part => [part]

/-- Parts joined by the connective of a level; a single one stands for itself. -/
def join (level : Level) : List (Formula α) → Formula α
  | [part] => part
  | parts => level.node parts

mutual
/-- The formula with every node inside a node of the same level spliced into it and every node of one
part replaced by the part. -/
def flat : Formula α → Formula α
  | .any parts => join .any (flatParts .any parts)
  | .all parts => join .all (flatParts .all parts)
  | .leaf a => .leaf a

def flatParts (level : Level) : List (Formula α) → List (Formula α)
  | [] => []
  | part :: rest => partsAt level part.flat ++ flatParts level rest
end

theorem flat_node (level : Level) (parts : List (Formula α)) :
    (level.node parts).flat = join level (flatParts level parts) := by
  cases level <;> rw [Level.node, flat]

theorem partsAt_node (level : Level) (parts : List (Formula α)) :
    partsAt level (level.node parts) = parts := by
  cases level <;> rfl

theorem node_or_partsAt (level : Level) (t : Formula α) :
    (∃ parts, t = level.node parts) ∨
      partsAt level t = [t] ∧ ∀ parts, t ≠ level.node parts := by
  cases level <;> cases t <;> simp [partsAt, Level.node]

section Flattening

variable {level : Level} {t : Formula α}

private theorem ungroups_inside {part part' : Formula α}
    (h : Relation.ReflTransGen Ungroups part part') (front rest : List (Formula α)) :
    Relation.ReflTransGen Ungroups (level.node (front ++ part :: rest))
      (level.node (front ++ part' :: rest)) :=
  h.lift (fun part => level.node (front ++ part :: rest)) fun _ _ h => .inside level h front rest

private theorem ungroups_partsAt (front rest : List (Formula α)) (part : Formula α) :
    Relation.ReflTransGen Ungroups (level.node (front ++ part :: rest))
      (level.node (front ++ (partsAt level part ++ rest))) := by
  rcases node_or_partsAt level part with ⟨inner, rfl⟩ | ⟨halone, -⟩
  · rw [partsAt_node]
    exact .single (.splice level front inner rest)
  · rw [halone]
    exact .refl

private theorem ungroups_flatParts {parts : List (Formula α)}
    (h : ∀ part ∈ parts, Relation.ReflTransGen Ungroups part part.flat) (front : List (Formula α)) :
    Relation.ReflTransGen Ungroups (level.node (front ++ parts))
      (level.node (front ++ flatParts level parts)) := by
  induction parts generalizing front with
  | nil => exact .refl
  | cons part rest ih =>
      rw [List.forall_mem_cons] at h
      have hrest := ih h.2 (front ++ partsAt level part.flat)
      rw [List.append_assoc, List.append_assoc] at hrest
      exact ((ungroups_inside h.1 front rest).trans (ungroups_partsAt front rest part.flat)).trans
        hrest

private theorem ungroups_join (parts : List (Formula α)) :
    Relation.ReflTransGen Ungroups (level.node parts) (join level parts) := by
  match parts with
  | [part] => exact .single (.single level part)
  | [] | _ :: _ :: _ => exact .refl

/-- Flattening takes away one needless group after another. -/
theorem ungroups_flat (t : Formula α) : Relation.ReflTransGen Ungroups t t.flat := by
  induction t using inductionOnNode with
  | leaf a => exact .refl
  | node level parts ih =>
      rw [flat_node]
      exact (ungroups_flatParts ih []).trans (ungroups_join _)

/-- No group is needless. -/
inductive Settled : Formula α → Prop where
  | leaf (a : α) : Settled (.leaf a)
  | node (level : Level) (parts : List (Formula α)) (several : parts.length ≠ 1)
      (settled : ∀ part ∈ parts, Settled part)
      (apart : ∀ part ∈ parts, ∀ inner, part ≠ level.node inner) : Settled (level.node parts)

private theorem node_injective {level level' : Level} {parts parts' : List (Formula α)}
    (h : level.node parts = level'.node parts') : level = level' ∧ parts = parts' := by
  cases level <;> cases level' <;> simp_all [Level.node]

private theorem node_ne_leaf (level : Level) (parts : List (Formula α)) (a : α) :
    level.node parts ≠ .leaf a := by
  cases level <;> simp [Level.node]

private theorem Settled.of_node {parts : List (Formula α)} (h : Settled (level.node parts)) :
    parts.length ≠ 1 ∧ (∀ part ∈ parts, Settled part) ∧
      ∀ part ∈ parts, ∀ inner, part ≠ level.node inner := by
  generalize hnode : level.node parts = node at h
  cases h with
  | leaf a => exact absurd hnode (node_ne_leaf level parts a)
  | node level' parts' several settled apart =>
      obtain ⟨rfl, rfl⟩ := node_injective hnode
      exact ⟨several, settled, apart⟩

private theorem Settled.partsAt (h : Settled t) :
    ∀ part ∈ partsAt level t, Settled part ∧ ∀ inner, part ≠ level.node inner := by
  rcases node_or_partsAt level t with ⟨parts, rfl⟩ | ⟨halone, hne⟩
  · rw [partsAt_node]
    intro part hpart
    exact ⟨h.of_node.2.1 part hpart, h.of_node.2.2 part hpart⟩
  · rw [halone]
    intro part hpart
    rw [List.mem_singleton.mp hpart]
    exact ⟨h, hne⟩

private theorem settled_join {parts : List (Formula α)}
    (h : ∀ part ∈ parts, Settled part ∧ ∀ inner, part ≠ level.node inner) :
    Settled (join level parts) := by
  match parts, h with
  | [part], h => exact (h part (List.mem_singleton_self part)).1
  | [], h => exact .node level [] (by simp) (by simp) (by simp)
  | first :: second :: rest, h =>
      exact .node level _ (by simp) (fun part hpart => (h part hpart).1)
        fun part hpart => (h part hpart).2

theorem settled_flat (t : Formula α) : t.flat.Settled := by
  induction t using inductionOnNode with
  | leaf a => exact .leaf a
  | node level parts ih =>
      rw [flat_node]
      apply settled_join
      induction parts with
      | nil => simp [flatParts]
      | cons part rest ihrest =>
          rw [List.forall_mem_cons] at ih
          rw [flatParts, List.forall_mem_append]
          exact ⟨ih.1.partsAt, ihrest ih.2⟩

theorem Ungroups.not_settled {t' : Formula α} (h : Ungroups t t') : ¬ t.Settled := by
  induction h with
  | splice level front inner rest =>
      intro hsettled
      exact hsettled.of_node.2.2 (level.node inner) (by simp) inner rfl
  | single level part =>
      intro hsettled
      exact hsettled.of_node.1 rfl
  | inside level _ front rest ih =>
      intro hsettled
      exact ih (hsettled.of_node.2.1 _ (by simp))

end Flattening

theorem flat_equivalent (t : Formula α) : t.flat.Equivalent t := by
  have hall : ∀ {t t' : Formula α}, Relation.ReflTransGen Ungroups t t' → t.Equivalent t' := by
    intro t t' h
    induction h with
    | refl => exact .refl t
    | tail _ hstep ih => exact ih.trans hstep.equivalent
  exact (hall (ungroups_flat t)).symm

end Formula

namespace Filter

/-- Equivalent trees normalize to the same filter or fault. -/
theorem normalizeFault_congr {operators : OperatorTable} {tree tree' : Formula RawComparison}
    (h : tree.Equivalent tree') : normalizeFault operators tree = normalizeFault operators tree' := by
  have hrefusal := h.refusal_traverse operators.resolve
  unfold normalizeFault
  cases htree : tree.traverse operators.resolve with
  | error fault =>
      rw [htree] at hrefusal
      rw [Formula.refusal_eq_some.mp hrefusal.symm]
  | ok resolved =>
      rw [htree] at hrefusal
      obtain ⟨resolved', htree'⟩ := Formula.refusal_eq_none.mp hrefusal.symm
      simp only [htree', (h.traverse htree htree').alternatives_eq]

end Filter

end RequestQuery
