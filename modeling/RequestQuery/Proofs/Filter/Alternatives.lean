import RequestQuery.Proofs.Filter.Formula
import Mathlib.Data.List.Lex
import Mathlib.Data.List.FinRange

/-!
# The alternatives of a formula

Spreading a formula into alternatives keeps its truth value. Each alternative is a choice of leaves in
their order, and the choices come in lexicographic order of the places of their leaves.
-/

namespace RequestQuery

namespace Formula

variable {α β : Type}

/-- Whether all leaves of some alternative are true. -/
def someHolds (truth : α → Bool) (choices : List (List α)) : Bool :=
  choices.any fun choice => choice.all truth

@[simp] theorem someHolds_append (truth : α → Bool) (xs ys : List (List α)) :
    someHolds truth (xs ++ ys) = (someHolds truth xs || someHolds truth ys) := by
  simp [someHolds]

private theorem someHolds_map_append (truth : α → Bool) (x : List α) (ys : List (List α)) :
    someHolds truth (ys.map fun right => x ++ right) = (x.all truth && someHolds truth ys) := by
  induction ys with
  | nil => simp [someHolds]
  | cons y ys ih =>
      simp only [someHolds, List.map_cons, List.any_cons, List.all_append] at ih ⊢
      rw [ih, Bool.and_or_distrib_left]

theorem someHolds_product (truth : α → Bool) (xs ys : List (List α)) :
    someHolds truth (xs.flatMap fun left => ys.map fun right => left ++ right) =
      (someHolds truth xs && someHolds truth ys) := by
  induction xs with
  | nil => rfl
  | cons x xs ih =>
      rw [List.flatMap_cons, someHolds_append, ih, someHolds_map_append]
      simp only [someHolds, List.any_cons]
      rw [Bool.and_or_distrib_right]

theorem someHolds_alternatives (truth : α → Bool) (t : Formula α) :
    someHolds truth t.alternatives = t.eval truth := by
  induction t using inductionOn with
  | leaf a => simp [alternatives, someHolds, eval]
  | any parts ih =>
      rw [alternatives, eval]
      induction parts with
      | nil => rfl
      | cons part rest ihrest =>
          rw [anyAlternatives, someHolds_append, ih part (List.mem_cons_self ..),
            ihrest fun p hp => ih p (List.mem_cons_of_mem _ hp), evalAny]
  | all parts ih =>
      rw [alternatives, eval]
      induction parts with
      | nil => rfl
      | cons part rest ihrest =>
          simp only [allAlternatives, evalAll]
          rw [someHolds_product, ih part (List.mem_cons_self ..),
            ihrest fun p hp => ih p (List.mem_cons_of_mem _ hp)]

mutual
/-- How many alternatives a formula has: the sum over the parts of an `any`, the product over the
parts of an `all`. -/
def spread : Formula α → Nat
  | .any parts => spreadSum parts
  | .all parts => spreadProduct parts
  | .leaf _ => 1

def spreadSum : List (Formula α) → Nat
  | [] => 0
  | part :: rest => part.spread + spreadSum rest

def spreadProduct : List (Formula α) → Nat
  | [] => 1
  | part :: rest => part.spread * spreadProduct rest
end

theorem length_alternatives (t : Formula α) : t.alternatives.length = t.spread := by
  induction t using inductionOn with
  | leaf a => simp [alternatives, spread]
  | any parts ih =>
      rw [alternatives, spread]
      induction parts with
      | nil => rfl
      | cons part rest ihrest =>
          rw [anyAlternatives, List.length_append, ih part (List.mem_cons_self ..),
            ihrest fun p hp => ih p (List.mem_cons_of_mem _ hp), spreadSum]
  | all parts ih =>
      rw [alternatives, spread]
      induction parts with
      | nil => rfl
      | cons part rest ihrest =>
          simp only [allAlternatives, List.length_flatMap, List.length_map, List.map_const',
            List.sum_replicate_nat, spreadProduct]
          rw [ih part (List.mem_cons_self ..), ihrest fun p hp => ih p (List.mem_cons_of_mem _ hp)]

mutual
/-- Every node has at least `least` parts. -/
def Branching (least : Nat) : Formula α → Prop
  | .any parts => least ≤ parts.length ∧ BranchingList least parts
  | .all parts => least ≤ parts.length ∧ BranchingList least parts
  | .leaf _ => True

def BranchingList (least : Nat) : List (Formula α) → Prop
  | [] => True
  | part :: rest => part.Branching least ∧ BranchingList least rest
end

theorem branchingList_iff {least : Nat} {parts : List (Formula α)} :
    BranchingList least parts ↔ ∀ part ∈ parts, part.Branching least := by
  induction parts with
  | nil => simp [BranchingList]
  | cons part rest ih => simp [BranchingList, ih]

theorem alternatives_map (f : α → β) (t : Formula α) :
    (t.map f).alternatives = t.alternatives.map (List.map f) := by
  induction t using inductionOn with
  | leaf a => simp [alternatives]
  | any parts ih =>
      simp only [map_any, alternatives, anyAlternatives_eq_flatMap, List.flatMap_map,
        List.map_flatMap]
      exact List.flatMap_congr ih
  | all parts ih =>
      simp only [map_all, alternatives]
      induction parts with
      | nil => rfl
      | cons part rest ihrest =>
          simp only [List.map_cons, allAlternatives]
          rw [ih part (List.mem_cons_self ..), ihrest fun p hp => ih p (List.mem_cons_of_mem _ hp)]
          simp only [List.flatMap_map, List.map_flatMap, List.map_map]
          apply List.flatMap_congr
          intro left _
          apply List.map_congr_left
          intro right _
          simp

theorem sublist_leaves_of_mem_alternatives {t : Formula α} {choice : List α}
    (h : choice ∈ t.alternatives) : choice.Sublist t.leaves := by
  induction t using inductionOn generalizing choice with
  | leaf a => simp_all [alternatives]
  | any parts ih =>
      simp only [alternatives, anyAlternatives_eq_flatMap, List.mem_flatMap] at h
      obtain ⟨part, hpart, hchoice⟩ := h
      rw [leaves_any]
      exact (ih part hpart hchoice).trans (List.sublist_flatten_of_mem (List.mem_map_of_mem hpart))
  | all parts ih =>
      rw [alternatives] at h
      rw [leaves_all]
      induction parts generalizing choice with
      | nil => simp_all [allAlternatives]
      | cons part rest ihrest =>
          simp only [allAlternatives, List.mem_flatMap, List.mem_map] at h
          obtain ⟨left, hleft, right, hright, rfl⟩ := h
          rw [List.flatMap_cons]
          exact (ih part (List.mem_cons_self ..) hleft).append
            (ihrest (fun p hp => ih p (List.mem_cons_of_mem _ hp)) hright)

theorem ne_nil_of_mem_alternatives {t : Formula α} (ht : t.Branching 1) {choice : List α}
    (h : choice ∈ t.alternatives) : choice ≠ [] := by
  induction t using inductionOn generalizing choice with
  | leaf a => simp_all [alternatives]
  | any parts ih =>
      simp only [alternatives, anyAlternatives_eq_flatMap, List.mem_flatMap] at h
      obtain ⟨part, hpart, hchoice⟩ := h
      exact ih part hpart (branchingList_iff.mp ht.2 part hpart) hchoice
  | all parts ih =>
      cases parts with
      | nil => exact absurd ht.1 (by simp)
      | cons part rest =>
          simp only [alternatives, allAlternatives, List.mem_flatMap, List.mem_map] at h
          obtain ⟨left, hleft, right, -, rfl⟩ := h
          have hne := ih part (List.mem_cons_self ..) ht.2.1 hleft
          simp [hne]

theorem alternatives_ne_nil {t : Formula α} (ht : t.Branching 1) : t.alternatives ≠ [] := by
  induction t using inductionOn with
  | leaf a => simp [alternatives]
  | any parts ih =>
      cases parts with
      | nil => exact absurd ht.1 (by simp)
      | cons part rest =>
          have hne := ih part (List.mem_cons_self ..) ht.2.1
          simp [alternatives, anyAlternatives, hne]
  | all parts ih =>
      have hlist := branchingList_iff.mp ht.2
      rw [alternatives]
      clear ht
      induction parts with
      | nil => simp [allAlternatives]
      | cons part rest ihrest =>
          rw [List.forall_mem_cons] at hlist
          have hfirst := ih part (List.mem_cons_self ..) hlist.1
          have hrest := ihrest (fun p hp => ih p (List.mem_cons_of_mem _ hp)) hlist.2
          obtain ⟨left, hleft⟩ := List.exists_mem_of_ne_nil _ hfirst
          obtain ⟨right, hright⟩ := List.exists_mem_of_ne_nil _ hrest
          apply List.ne_nil_of_mem (a := left ++ right)
          simp only [allAlternatives, List.mem_flatMap, List.mem_map]
          exact ⟨left, hleft, right, hright, rfl⟩

theorem Branching.mono {least least' : Nat} (hle : least' ≤ least) {t : Formula α}
    (ht : t.Branching least) : t.Branching least' := by
  induction t using inductionOn with
  | leaf a => trivial
  | any parts ih | all parts ih =>
      have hlist := branchingList_iff.mp ht.2
      exact ⟨Nat.le_trans hle ht.1, branchingList_iff.mpr fun part hpart => ih part hpart (hlist part hpart)⟩

/-- At the first place where two choices differ, the first has the smaller leaf. Neither is then the
front of the other. -/
def Precedes [LT α] (left right : List α) : Prop :=
  ∃ (common : List α) (a b : α) (as bs : List α),
    left = common ++ a :: as ∧ right = common ++ b :: bs ∧ a < b

theorem Precedes.lex [LT α] {left right : List α} (h : Precedes left right) :
    List.Lex (· < ·) left right := by
  obtain ⟨common, a, b, as, bs, rfl, rfl, hab⟩ := h
  induction common with
  | nil => exact .rel hab
  | cons c common ih => exact .cons ih

theorem Precedes.append_left [LT α] {left right : List α} (h : Precedes left right)
    (before : List α) : Precedes (before ++ left) (before ++ right) := by
  obtain ⟨common, a, b, as, bs, rfl, rfl, hab⟩ := h
  exact ⟨before ++ common, a, b, as, bs, by simp, by simp, hab⟩

theorem Precedes.append [LT α] {left right : List α} (h : Precedes left right)
    (xs ys : List α) : Precedes (left ++ xs) (right ++ ys) := by
  obtain ⟨common, a, b, as, bs, rfl, rfl, hab⟩ := h
  exact ⟨common, a, b, as ++ xs, bs ++ ys, by simp, by simp, hab⟩

theorem pairwise_precedes_alternatives [LT α] {t : Formula α} (ht : t.Branching 1)
    (hleaves : t.leaves.Pairwise (· < ·)) : t.alternatives.Pairwise Precedes := by
  induction t using inductionOn with
  | leaf a => simp [alternatives]
  | any parts ih =>
      rw [leaves_any, List.pairwise_flatMap] at hleaves
      have hparts := branchingList_iff.mp ht.2
      rw [alternatives, anyAlternatives_eq_flatMap, List.pairwise_flatMap]
      refine ⟨fun part hpart => ih part hpart (hparts part hpart) (hleaves.1 part hpart), ?_⟩
      refine hleaves.2.imp_of_mem ?_
      intro part part' hpart hpart' hless left hleft right hright
      -- Both choices start with a leaf of their own part.
      obtain ⟨a, as, rfl⟩ := List.exists_cons_of_ne_nil
        (ne_nil_of_mem_alternatives (hparts part hpart) hleft)
      obtain ⟨b, bs, rfl⟩ := List.exists_cons_of_ne_nil
        (ne_nil_of_mem_alternatives (hparts part' hpart') hright)
      have ha := (sublist_leaves_of_mem_alternatives hleft).subset (List.mem_cons_self ..)
      have hb := (sublist_leaves_of_mem_alternatives hright).subset (List.mem_cons_self ..)
      exact ⟨[], a, b, as, bs, rfl, rfl, hless a ha b hb⟩
  | all parts ih =>
      rw [leaves_all, List.pairwise_flatMap] at hleaves
      have hparts := branchingList_iff.mp ht.2
      rw [alternatives]
      clear ht
      induction parts with
      | nil => simp [allAlternatives]
      | cons part rest ihrest =>
          have hfirst := ih part (List.mem_cons_self ..) (hparts part (List.mem_cons_self ..))
            (hleaves.1 part (List.mem_cons_self ..))
          have hrest := ihrest (fun p hp => ih p (List.mem_cons_of_mem _ hp))
            ⟨fun p hp => hleaves.1 p (List.mem_cons_of_mem _ hp), hleaves.2.of_cons⟩
            (fun p hp => hparts p (List.mem_cons_of_mem _ hp))
          simp only [allAlternatives, List.pairwise_flatMap, List.pairwise_map]
          refine ⟨fun left _ => hrest.imp fun h => h.append_left left, ?_⟩
          refine hfirst.imp ?_
          intro left left' hlt choice hchoice choice' hchoice'
          obtain ⟨right, -, rfl⟩ := List.mem_map.mp hchoice
          obtain ⟨right', -, rfl⟩ := List.mem_map.mp hchoice'
          exact hlt.append right right'

private theorem exists_labelledList {parts : List (Formula α)}
    (hparts : ∀ part ∈ parts, ∀ labels : List β, labels.length = part.leaves.length →
      ∃ u : Formula (α × β), u.map Prod.fst = part ∧ u.leaves.map Prod.snd = labels)
    (labels : List β) (h : labels.length = (parts.flatMap leaves).length) :
    ∃ us : List (Formula (α × β)), us.map (Formula.map Prod.fst) = parts ∧
      (us.flatMap leaves).map Prod.snd = labels := by
  induction parts generalizing labels with
  | nil => exact ⟨[], rfl, by simpa using h⟩
  | cons part rest ih =>
      rw [List.flatMap_cons, List.length_append] at h
      obtain ⟨u, hu, hulabels⟩ := hparts part (List.mem_cons_self ..)
        (labels.take part.leaves.length) (by rw [List.length_take]; omega)
      obtain ⟨us, hus, huslabels⟩ := ih (fun p hp => hparts p (List.mem_cons_of_mem _ hp))
        (labels.drop part.leaves.length) (by rw [List.length_drop]; omega)
      refine ⟨u :: us, by rw [List.map_cons, hu, hus], ?_⟩
      rw [List.flatMap_cons, List.map_append, hulabels, huslabels, List.take_append_drop]

theorem exists_labelled (t : Formula α) (labels : List β) (h : labels.length = t.leaves.length) :
    ∃ u : Formula (α × β), u.map Prod.fst = t ∧ u.leaves.map Prod.snd = labels := by
  induction t using inductionOn generalizing labels with
  | leaf a =>
      obtain ⟨label, rfl⟩ := List.length_eq_one_iff.mp (by simpa using h)
      exact ⟨.leaf (a, label), by simp, by simp⟩
  | any parts ih =>
      obtain ⟨us, hus, huslabels⟩ := exists_labelledList ih labels (by simpa using h)
      exact ⟨.any us, by rw [map_any, hus], by rw [leaves_any, huslabels]⟩
  | all parts ih =>
      obtain ⟨us, hus, huslabels⟩ := exists_labelledList ih labels (by simpa using h)
      exact ⟨.all us, by rw [map_all, hus], by rw [leaves_all, huslabels]⟩

theorem exists_placed (t : Formula α) : ∃ u : Formula (Fin t.leaves.length),
    u.map t.leaves.get = t ∧ u.leaves = List.finRange t.leaves.length := by
  obtain ⟨u, hu, hlabels⟩ := exists_labelled t (List.finRange t.leaves.length) (by simp)
  have hfst : u.leaves.map Prod.fst = t.leaves := by rw [← leaves_map, hu]
  refine ⟨u.map Prod.snd, ?_, by rw [leaves_map, hlabels]⟩
  rw [map_map]
  have hcongr : u.map (t.leaves.get ∘ Prod.snd) = u.map Prod.fst := by
    apply map_congr
    intro pair hpair
    obtain ⟨k, hk, rfl⟩ := List.getElem_of_mem hpair
    have hk' : k < t.leaves.length := by simpa [← hfst] using hk
    have hplace : u.leaves[k].2 = ⟨k, hk'⟩ := by
      have hget := List.getElem_of_eq hlabels (i := k) (by simpa using hk)
      simpa using hget
    have hvalue : u.leaves[k].1 = t.leaves[k] := by
      have hget := List.getElem_of_eq hfst (i := k) (by simpa using hk)
      simpa using hget
    rw [Function.comp_apply, hplace, hvalue, List.get_eq_getElem]
  rw [hcongr, hu]

theorem Branching.of_map {f : α → β} {least : Nat} {t : Formula α}
    (h : (t.map f).Branching least) : t.Branching least := by
  induction t using inductionOn with
  | leaf a => trivial
  | any parts ih | all parts ih =>
      simp only [map_any, map_all, Branching, branchingList_iff, List.length_map, List.mem_map,
        forall_exists_index, and_imp, forall_apply_eq_imp_iff₂] at h ⊢
      exact ⟨h.1, fun part hpart => ih part hpart (h.2 part hpart)⟩

/-- The alternatives of a formula without empty nodes are choices of its leaves: each takes them in
their order, and the choices come in lexicographic order. -/
theorem exists_choices {t : Formula α} (ht : t.Branching 1) :
    ∃ choices : List (List (Fin t.leaves.length)),
      t.alternatives = choices.map (List.map t.leaves.get) ∧
      (∀ choice ∈ choices, choice.Pairwise (· < ·)) ∧
      choices.Pairwise (List.Lex (· < ·)) := by
  obtain ⟨u, hu, hplaces⟩ := exists_placed t
  have hbranching : u.Branching 1 := Branching.of_map (hu.symm ▸ ht)
  have hincreasing : u.leaves.Pairwise (· < ·) := by
    rw [hplaces]
    exact List.pairwise_lt_finRange _
  refine ⟨u.alternatives, ?_, ?_, ?_⟩
  · rw [← alternatives_map, hu]
  · intro choice hchoice
    exact hincreasing.sublist (sublist_leaves_of_mem_alternatives hchoice)
  · exact (pairwise_precedes_alternatives hbranching hincreasing).imp Precedes.lex

end Formula

end RequestQuery
