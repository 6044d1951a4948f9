import RequestQuery.Filter.Formula
import Mathlib.Data.List.Basic

/-!
# Laws of formulas

Passes over a formula are told by its leaves: two passes that agree on the leaves agree on the formula,
and a pass that may refuse a leaf refuses at the first one from the left.
-/

namespace RequestQuery

/-- The value of an outcome, or else its fault, is as it should be. -/
def Meets {α ε : Type} (good : α → Prop) (bad : ε → Prop) : Except ε α → Prop
  | .ok a => good a
  | .error e => bad e

/-- What a step does with an outcome is told by what it does with each kind of outcome. -/
@[elab_as_elim]
theorem Meets.elim {α ε : Type} {good : α → Prop} {bad : ε → Prop} {motive : Except ε α → Prop}
    {outcome : Except ε α} (h : Meets good bad outcome) (ok : ∀ a, good a → motive (.ok a))
    (error : ∀ e, bad e → motive (.error e)) : motive outcome := by
  cases outcome with
  | ok a => exact ok a h
  | error e => exact error e h

namespace Formula

variable {α β γ ε : Type}

@[elab_as_elim]
theorem inductionOn {motive : Formula α → Prop}
    (any : ∀ parts, (∀ part ∈ parts, motive part) → motive (.any parts))
    (all : ∀ parts, (∀ part ∈ parts, motive part) → motive (.all parts))
    (leaf : ∀ a, motive (.leaf a)) : ∀ t, motive t
  | .any parts => any parts fun part _ => inductionOn any all leaf part
  | .all parts => all parts fun part _ => inductionOn any all leaf part
  | .leaf a => leaf a

theorem leavesList_eq_flatMap (parts : List (Formula α)) : leavesList parts = parts.flatMap leaves := by
  induction parts with
  | nil => rfl
  | cons part rest ih => rw [leavesList, ih, List.flatMap_cons]

theorem mapList_eq_map (f : α → β) (parts : List (Formula α)) :
    mapList f parts = parts.map (Formula.map f) := by
  induction parts with
  | nil => rfl
  | cons part rest ih => rw [mapList, ih, List.map_cons]

theorem anyAlternatives_eq_flatMap (parts : List (Formula α)) :
    anyAlternatives parts = parts.flatMap alternatives := by
  induction parts with
  | nil => rfl
  | cons part rest ih => rw [anyAlternatives, ih, List.flatMap_cons]

@[simp] theorem leaves_any (parts : List (Formula α)) :
    (any parts).leaves = parts.flatMap leaves := by
  rw [leaves, leavesList_eq_flatMap]

@[simp] theorem leaves_all (parts : List (Formula α)) :
    (all parts).leaves = parts.flatMap leaves := by
  rw [leaves, leavesList_eq_flatMap]

@[simp] theorem leaves_leaf (a : α) : (leaf a).leaves = [a] := by rw [leaves]

@[simp] theorem map_any (f : α → β) (parts : List (Formula α)) :
    (any parts).map f = .any (parts.map (Formula.map f)) := by
  rw [map, mapList_eq_map]

@[simp] theorem map_all (f : α → β) (parts : List (Formula α)) :
    (all parts).map f = .all (parts.map (Formula.map f)) := by
  rw [map, mapList_eq_map]

@[simp] theorem map_leaf (f : α → β) (a : α) : (leaf a).map f = .leaf (f a) := by rw [map]

theorem leaves_map (f : α → β) (t : Formula α) : (t.map f).leaves = t.leaves.map f := by
  induction t using inductionOn with
  | leaf a => simp
  | any parts ih | all parts ih =>
      simp only [map_any, map_all, leaves_any, leaves_all, List.flatMap_map, List.map_flatMap]
      exact List.flatMap_congr ih

theorem map_congr {f g : α → β} {t : Formula α} (h : ∀ a ∈ t.leaves, f a = g a) :
    t.map f = t.map g := by
  induction t using inductionOn with
  | leaf a => simpa using h a
  | any parts ih | all parts ih =>
      simp only [map_any, map_all, leaves_any, leaves_all, List.mem_flatMap] at h ⊢
      congr 1
      apply List.map_congr_left
      intro part hpart
      exact ih part hpart fun a ha => h a ⟨part, hpart, ha⟩

theorem map_id (t : Formula α) : t.map id = t := by
  induction t using inductionOn with
  | leaf a => simp
  | any parts ih | all parts ih =>
      simp only [map_any, map_all]
      congr 1
      exact (List.map_congr_left ih).trans (List.map_id' parts)

theorem map_map (f : α → β) (g : β → γ) (t : Formula α) : (t.map f).map g = t.map (g ∘ f) := by
  induction t using inductionOn with
  | leaf a => simp
  | any parts ih | all parts ih =>
      simp only [map_any, map_all, List.map_map]
      congr 1
      exact List.map_congr_left ih

mutual
/-- Put a formula in place of every leaf. -/
def graft (g : α → Formula β) : Formula α → Formula β
  | .any parts => .any (graftList g parts)
  | .all parts => .all (graftList g parts)
  | .leaf a => g a

def graftList (g : α → Formula β) : List (Formula α) → List (Formula β)
  | [] => []
  | part :: rest => part.graft g :: graftList g rest
end

theorem graftList_eq_map (g : α → Formula β) (parts : List (Formula α)) :
    graftList g parts = parts.map (graft g) := by
  induction parts with
  | nil => rfl
  | cons part rest ih => rw [graftList, ih, List.map_cons]

@[simp] theorem graft_any (g : α → Formula β) (parts : List (Formula α)) :
    (any parts).graft g = .any (parts.map (graft g)) := by
  rw [graft, graftList_eq_map]

@[simp] theorem graft_all (g : α → Formula β) (parts : List (Formula α)) :
    (all parts).graft g = .all (parts.map (graft g)) := by
  rw [graft, graftList_eq_map]

@[simp] theorem graft_leaf (g : α → Formula β) (a : α) : (leaf a).graft g = g a := by rw [graft]

theorem leaves_graft (g : α → Formula β) (t : Formula α) :
    (t.graft g).leaves = t.leaves.flatMap fun a => (g a).leaves := by
  induction t using inductionOn with
  | leaf a => simp
  | any parts ih | all parts ih =>
      simp only [graft_any, graft_all, leaves_any, leaves_all, List.flatMap_map, List.flatMap_assoc]
      exact List.flatMap_congr ih

theorem graft_graft (g : α → Formula β) (h : β → Formula γ) (t : Formula α) :
    (t.graft g).graft h = t.graft fun a => (g a).graft h := by
  induction t using inductionOn with
  | leaf a => simp
  | any parts ih | all parts ih =>
      simp only [graft_any, graft_all, List.map_map]
      congr 1
      exact List.map_congr_left ih

theorem graft_congr {g h : α → Formula β} {t : Formula α} (hgh : ∀ a ∈ t.leaves, g a = h a) :
    t.graft g = t.graft h := by
  induction t using inductionOn with
  | leaf a => simpa using hgh a
  | any parts ih | all parts ih =>
      simp only [graft_any, graft_all, leaves_any, leaves_all, List.mem_flatMap] at hgh ⊢
      congr 1
      apply List.map_congr_left
      intro part hpart
      exact ih part hpart fun a ha => hgh a ⟨part, hpart, ha⟩

theorem map_eq_graft (f : α → β) (t : Formula α) : t.map f = t.graft fun a => .leaf (f a) := by
  induction t using inductionOn with
  | leaf a => simp
  | any parts ih | all parts ih =>
      simp only [map_any, map_all, graft_any, graft_all]
      congr 1
      exact List.map_congr_left ih

/-- The fault of an outcome, if it is one. -/
def refusal : Except ε β → Option ε
  | .ok _ => none
  | .error e => some e

@[simp] theorem refusal_eq_none {r : Except ε β} : refusal r = none ↔ ∃ b, r = .ok b := by
  cases r <;> simp [refusal]

@[simp] theorem refusal_eq_some {r : Except ε β} {e : ε} : refusal r = some e ↔ r = .error e := by
  cases r <;> simp [refusal]

private theorem refusal_substituteList (f : α → Except ε (Formula β)) (parts : List (Formula α)) :
    refusal (substituteList f parts) = parts.findSome? fun part => refusal (part.substitute f) := by
  induction parts with
  | nil => rfl
  | cons part rest ih =>
      simp only [substituteList, List.findSome?_cons]
      cases part.substitute f with
      | error e => rfl
      | ok part' =>
          change refusal _ = rest.findSome? _
          rw [← ih]
          cases substituteList f rest <;> rfl

private theorem findSome?_flatMap_leaves (f : α → Except ε (Formula β)) (parts : List (Formula α))
    (h : ∀ part ∈ parts, refusal (part.substitute f) = part.leaves.findSome? (refusal ∘ f)) :
    refusal (substituteList f parts) = (parts.flatMap leaves).findSome? (refusal ∘ f) := by
  rw [refusal_substituteList]
  induction parts with
  | nil => rfl
  | cons part rest ih =>
      rw [List.findSome?_cons, List.flatMap_cons, List.findSome?_append,
        h part (List.mem_cons_self ..), ih fun p hp => h p (List.mem_cons_of_mem _ hp)]
      cases part.leaves.findSome? (refusal ∘ f) <;> rfl

/-- A substitution is refused at the first leaf for which there is no formula, and only there. -/
theorem refusal_substitute (f : α → Except ε (Formula β)) (t : Formula α) :
    refusal (t.substitute f) = t.leaves.findSome? (refusal ∘ f) := by
  induction t using inductionOn with
  | leaf a =>
      rw [substitute, leaves_leaf, List.findSome?_singleton]
      rfl
  | any parts ih | all parts ih =>
      have hparts := findSome?_flatMap_leaves f parts ih
      simp only [leaves_any, leaves_all, substitute, ← hparts]
      cases substituteList f parts <;> rfl

theorem substitute_eq_ok {f : α → Except ε (Formula β)} {g : α → Formula β} {t : Formula α}
    (h : ∀ a ∈ t.leaves, f a = .ok (g a)) : t.substitute f = .ok (t.graft g) := by
  have hlist : ∀ parts : List (Formula α),
      (∀ part ∈ parts, part.substitute f = .ok (part.graft g)) →
        substituteList f parts = .ok (parts.map (graft g)) := by
    intro parts hparts
    induction parts with
    | nil => rfl
    | cons part rest ih =>
        simp only [substituteList, hparts part (List.mem_cons_self ..),
          ih fun p hp => hparts p (List.mem_cons_of_mem _ hp), List.map_cons]
  induction t using inductionOn with
  | leaf a => simpa [substitute] using h a
  | any parts ih | all parts ih =>
      simp only [leaves_any, leaves_all, List.mem_flatMap] at h
      simp only [substitute, graft_any, graft_all,
        hlist parts fun part hpart => ih part hpart fun a ha => h a ⟨part, hpart, ha⟩]

theorem substitute_map {α' β' : Type} {f : α → Except ε (Formula β)}
    {f' : α' → Except ε (Formula β')} {s : α → α'} {r : β → β'}
    (h : ∀ a u, f a = .ok u → f' (s a) = .ok (u.map r)) {t : Formula α} {u : Formula β}
    (ht : t.substitute f = .ok u) : (t.map s).substitute f' = .ok (u.map r) := by
  have hlist : ∀ (parts : List (Formula α)) (us : List (Formula β)),
      (∀ part ∈ parts, ∀ u, part.substitute f = .ok u → (part.map s).substitute f' = .ok (u.map r)) →
        substituteList f parts = .ok us →
          substituteList f' (parts.map (map s)) = .ok (us.map (map r)) := by
    intro parts
    induction parts with
    | nil =>
        intro us _ hus
        cases hus
        rfl
    | cons part rest ih =>
        intro us hparts hus
        simp only [substituteList] at hus
        split at hus
        next v hv =>
          split at hus
          next vs hvs =>
            cases hus
            simp only [List.map_cons, substituteList, hparts part (List.mem_cons_self ..) v hv,
              ih vs (fun p hp => hparts p (List.mem_cons_of_mem _ hp)) hvs]
          next => cases hus
        next => cases hus
  induction t using inductionOn generalizing u with
  | leaf a =>
      rw [map_leaf, substitute]
      exact h a u ht
  | any parts ih | all parts ih =>
      simp only [substitute] at ht
      split at ht <;> cases ht
      next us hus =>
        simp only [map_any, map_all, substitute, hlist parts us (fun p hp u hu => ih p hp hu) hus]

theorem meets_substitute {f : α → Except ε (Formula β)} {good : β → Prop} {bad : ε → Prop}
    {t : Formula α} (h : ∀ a ∈ t.leaves, Meets (fun u => ∀ b ∈ u.leaves, good b) bad (f a)) :
    Meets (fun u => ∀ b ∈ u.leaves, good b) bad (t.substitute f) := by
  have hlist : ∀ parts : List (Formula α),
      (∀ part ∈ parts, Meets (fun u => ∀ b ∈ u.leaves, good b) bad (part.substitute f)) →
        Meets (fun us => ∀ b ∈ us.flatMap leaves, good b) bad (substituteList f parts) := by
    intro parts hparts
    induction parts with
    | nil => simp [substituteList, Meets]
    | cons part rest ih =>
        rw [List.forall_mem_cons] at hparts
        rw [substituteList]
        refine hparts.1.elim (fun u hfirst => ?_) fun _ h => h
        refine (ih hparts.2).elim (fun us hrest => ?_) fun _ h => h
        simp only [Meets, List.flatMap_cons, List.forall_mem_append]
        exact ⟨hfirst, hrest⟩
  induction t using inductionOn with
  | leaf a => simpa [substitute] using h a
  | any parts ih | all parts ih =>
      simp only [leaves_any, leaves_all, List.mem_flatMap] at h
      have hparts := hlist parts fun part hpart => ih part hpart fun a ha => h a ⟨part, hpart, ha⟩
      rw [substitute]
      refine hparts.elim (fun us hus => ?_) fun _ h => h
      simpa [Meets] using hus

theorem refusal_traverse (f : α → Except ε β) (t : Formula α) :
    refusal (t.traverse f) = t.leaves.findSome? (refusal ∘ f) := by
  rw [traverse, refusal_substitute]
  congr 1
  funext a
  simp only [Function.comp_apply]
  cases f a <;> rfl

theorem traverse_map {α' β' : Type} {f : α → Except ε β} {f' : α' → Except ε β'} {s : α → α'}
    {r : β → β'} (h : ∀ a b, f a = .ok b → f' (s a) = .ok (r b)) {t : Formula α} {u : Formula β}
    (ht : t.traverse f = .ok u) : (t.map s).traverse f' = .ok (u.map r) := by
  apply substitute_map ?_ ht
  intro a v hv
  split at hv <;> cases hv
  next b hb => simp [h a b hb]

theorem map_of_traverse_eq_ok {f : α → Except ε β} {t : Formula α} {u : Formula β}
    (h : t.traverse f = .ok u) : t.map f = u.map .ok := by
  let single : α → Except ε (Formula β) := fun a =>
    match f a with
    | .ok b => .ok (.leaf b)
    | .error e => .error e
  have hlist : ∀ (parts : List (Formula α)) (us : List (Formula β)),
      (∀ part ∈ parts, ∀ u, part.traverse f = .ok u → part.map f = u.map .ok) →
        substituteList single parts = .ok us →
          parts.map (Formula.map f) = us.map (Formula.map .ok) := by
    intro parts
    induction parts with
    | nil =>
        intro us _ hus
        simp only [substituteList, Except.ok.injEq] at hus
        simp [← hus]
    | cons part rest ih =>
        intro us hparts hus
        simp only [substituteList] at hus
        split at hus
        next u hu =>
          split at hus
          next rest' hrest =>
            cases hus
            rw [List.map_cons, List.map_cons, hparts part (List.mem_cons_self ..) u hu,
              ih rest' (fun p hp => hparts p (List.mem_cons_of_mem _ hp)) hrest]
          next => cases hus
        next => cases hus
  induction t using inductionOn generalizing u with
  | leaf a =>
      simp only [traverse, substitute] at h
      split at h <;> cases h
      next b hb => simp [hb]
  | any parts ih | all parts ih =>
      simp only [traverse, substitute] at h
      split at h <;> cases h
      next us hus => simp only [map_any, map_all, hlist parts us ih hus]

theorem map_injective {f : α → β} (hf : Function.Injective f) :
    Function.Injective (Formula.map f) := by
  have hlist : ∀ parts parts' : List (Formula α),
      (∀ part ∈ parts, ∀ u, part.map f = u.map f → part = u) →
        parts.map (Formula.map f) = parts'.map (Formula.map f) → parts = parts' := by
    intro parts
    induction parts with
    | nil => intro parts' _ h; simpa using h.symm
    | cons part rest ih =>
        intro parts' hparts h
        cases parts' with
        | nil => simp at h
        | cons part' rest' =>
            simp only [List.map_cons, List.cons.injEq] at h
            rw [hparts part (List.mem_cons_self ..) part' h.1,
              ih rest' (fun p hp => hparts p (List.mem_cons_of_mem _ hp)) h.2]
  intro t
  induction t using inductionOn with
  | leaf a =>
      intro u h
      cases u <;> simp only [map_any, map_all, map_leaf, reduceCtorEq, leaf.injEq] at h ⊢
      exact hf h
  | any parts ih | all parts ih =>
      intro u h
      cases u <;>
        simp only [map_any, map_all, map_leaf, reduceCtorEq, any.injEq, all.injEq] at h ⊢
      exact hlist parts _ (fun part hpart u hu => ih part hpart hu) h

theorem traverse_eq_ok_iff {f : α → Except ε β} {t : Formula α} {u : Formula β} :
    t.traverse f = .ok u ↔ t.map f = u.map .ok := by
  refine ⟨map_of_traverse_eq_ok, fun h => ?_⟩
  have hleaves : t.leaves.map f = u.leaves.map .ok := by rw [← leaves_map, h, leaves_map]
  have hnone : refusal (t.traverse f) = none := by
    rw [refusal_traverse, List.findSome?_eq_none_iff]
    intro a ha
    have hmem : f a ∈ u.leaves.map (Except.ok : β → Except ε β) := hleaves ▸ List.mem_map_of_mem ha
    obtain ⟨b, -, hb⟩ := List.mem_map.mp hmem
    exact refusal_eq_none.mpr ⟨b, hb.symm⟩
  obtain ⟨v, hv⟩ := refusal_eq_none.mp hnone
  have hvu : v.map (Except.ok : β → Except ε β) = u.map .ok := by rw [← map_of_traverse_eq_ok hv, h]
  rw [hv, map_injective (fun _ _ => Except.ok.inj) hvu]

end Formula

end RequestQuery
