import RequestQuery.Proofs.Filter.Expansion
import RequestQuery.Proofs.Filter.Unambiguity

/-!
# The marks of a term

The names and endings that stand anywhere in a term. A walk meets no other marks, and no mark is passed
by: some walk meets it. So the comparisons of an expanded term hold the endings of the term and nothing
else, and a derivation is well-formed under any table that binds the tokens of these comparisons.
-/

namespace RequestQuery

mutual
/-- The names and endings written in a term. -/
def Term.marks : Term → List Mark
  | .any terms => Term.marksList terms
  | .all terms => Term.marksList terms
  | .path head steps ending _ =>
      .name head.value :: (Step.marksList steps ++ ending.toList.map .ending)

def Term.marksList : List Term → List Mark
  | [] => []
  | term :: rest => term.marks ++ Term.marksList rest

def Step.marksList : List Step → List Mark
  | [] => []
  | .segment name :: rest => .name name.value :: Step.marksList rest
  | .group term :: rest => term.marks ++ Step.marksList rest
end

theorem Term.marks_collapse (level : Grammar.Level) (terms : List Term) :
    (Term.collapse level.wrap terms).marks = Term.marksList terms := by
  match terms with
  | [term] => simp [Term.collapse, Term.marksList]
  | [] | _ :: _ :: _ => cases level <;> rfl

theorem Term.marks_collapse_any (terms : List Term) :
    (Term.collapse .any terms).marks = Term.marksList terms :=
  Term.marks_collapse .any terms

theorem Term.marks_collapse_all (terms : List Term) :
    (Term.collapse .all terms).marks = Term.marksList terms :=
  Term.marks_collapse .all terms

section Reach

variable {β : Type}

mutual
theorem Term.exists_of_mem_reach : ∀ (term : Term) (w : Walk) (k : Walk → Formula β) {b : β},
    b ∈ (term.reach w k).leaves → ∃ v, b ∈ (k v).leaves ∧
      (∃ name, w.marks ++ [.name name] <+: v.marks) ∧ ∀ m ∈ v.marks, m ∈ w.marks ∨ m ∈ term.marks
  | .any terms, w, k, b, h => by
      rw [Term.reach, Formula.leaves_any] at h
      exact Term.exists_of_mem_reachList terms w k h
  | .all terms, w, k, b, h => by
      rw [Term.reach, Formula.leaves_all] at h
      exact Term.exists_of_mem_reachList terms w k h
  | .path head steps ending span, w, k, b, h => by
      rw [Term.reach] at h
      obtain ⟨v, hb, hfront, hmarks⟩ := Step.exists_of_mem_reach steps _ _ h
      refine ⟨v.past ending, hb, ⟨head.value, hfront.trans (List.prefix_append _ _)⟩, ?_⟩
      intro m hm
      simp only [Walk.past, List.mem_append] at hm
      rcases hm with hm | hm
      · have hmet := hmarks m hm
        simp only [Walk.onto, List.mem_append, List.mem_singleton] at hmet
        simp only [Term.marks, List.mem_cons, List.mem_append]
        tauto
      · simp only [Term.marks, List.mem_cons, List.mem_append]
        tauto

private theorem Term.exists_of_mem_reachList : ∀ (terms : List Term) (w : Walk)
    (k : Walk → Formula β) {b : β}, b ∈ (Term.reachList terms w k).flatMap Formula.leaves →
      ∃ v, b ∈ (k v).leaves ∧ (∃ name, w.marks ++ [.name name] <+: v.marks) ∧
        ∀ m ∈ v.marks, m ∈ w.marks ∨ m ∈ Term.marksList terms
  | [], _, _, _, h => by cases h
  | term :: rest, w, k, b, h => by
      rw [Term.reachList, List.flatMap_cons, List.mem_append] at h
      simp only [Term.marksList, List.mem_append]
      rcases h with h | h
      · obtain ⟨v, hb, hfront, hmarks⟩ := term.exists_of_mem_reach w k h
        exact ⟨v, hb, hfront, fun m hm => (hmarks m hm).imp_right .inl⟩
      · obtain ⟨v, hb, hfront, hmarks⟩ := Term.exists_of_mem_reachList rest w k h
        exact ⟨v, hb, hfront, fun m hm => (hmarks m hm).imp_right .inr⟩

private theorem Step.exists_of_mem_reach : ∀ (steps : List Step) (w : Walk)
    (k : Walk → Formula β) {b : β}, b ∈ (Step.reach steps w k).leaves →
      ∃ v, b ∈ (k v).leaves ∧ w.marks <+: v.marks ∧
        ∀ m ∈ v.marks, m ∈ w.marks ∨ m ∈ Step.marksList steps
  | [], w, _, _, h => ⟨w, h, List.prefix_rfl, fun _ hm => .inl hm⟩
  | .segment name :: rest, w, k, b, h => by
      obtain ⟨v, hb, hfront, hmarks⟩ := Step.exists_of_mem_reach rest (w.onto name.value) k h
      refine ⟨v, hb, (List.prefix_append _ _).trans hfront, fun m hm => ?_⟩
      have hmet := hmarks m hm
      simp only [Walk.onto, List.mem_append, List.mem_singleton] at hmet
      simp only [Step.marksList, List.mem_cons]
      tauto
  | .group term :: rest, w, k, b, h => by
      obtain ⟨u, hu, ⟨_, hfront⟩, hmarks⟩ := term.exists_of_mem_reach w _ h
      obtain ⟨v, hb, hbehind, hmarks'⟩ := Step.exists_of_mem_reach rest u k hu
      refine ⟨v, hb, (List.prefix_append _ _).trans (hfront.trans hbehind), fun m hm => ?_⟩
      simp only [Step.marksList, List.mem_append]
      rcases hmarks' m hm with hm | hm
      · exact (hmarks m hm).imp_right .inl
      · exact .inr (.inr hm)
end

mutual
/-- Some walk through a term meets a given mark of it, and goes wherever the continuation leads. -/
theorem Term.exists_meets (m : Mark) : ∀ (term : Term), term.Proper →
    ∀ (w : Walk) (k : Walk → Formula β), ∃ u, (m ∈ w.marks ∨ m ∈ term.marks → m ∈ u.marks) ∧
      (k u).leaves ⊆ (term.reach w k).leaves
  | .any terms, hproper, w, k => by
      rw [Term.reach, Formula.leaves_any]
      exact Term.exists_meetsList m terms hproper.1 hproper.2 w k
  | .all terms, hproper, w, k => by
      rw [Term.reach, Formula.leaves_all]
      exact Term.exists_meetsList m terms hproper.1 hproper.2 w k
  | .path head steps ending span, hproper, w, k => by
      obtain ⟨u, hmet, hleaves⟩ := Step.exists_meets m steps hproper
        { w.onto head.value with span := span } fun v => k (v.past ending)
      refine ⟨u.past ending, fun hm => ?_, hleaves⟩
      simp only [Walk.onto, List.mem_append, List.mem_singleton] at hmet
      simp only [Term.marks, List.mem_cons, List.mem_append] at hm
      simp only [Walk.past, List.mem_append]
      tauto

private theorem Term.exists_meetsList (m : Mark) : ∀ (terms : List Term), terms ≠ [] →
    Term.ProperList terms → ∀ (w : Walk) (k : Walk → Formula β),
      ∃ u, (m ∈ w.marks ∨ m ∈ Term.marksList terms → m ∈ u.marks) ∧
        (k u).leaves ⊆ (Term.reachList terms w k).flatMap Formula.leaves
  | [], hne, _, _, _ => absurd rfl hne
  | term :: rest, _, hproper, w, k => by
      simp only [Term.marksList, Term.reachList, List.flatMap_cons, List.mem_append]
      by_cases hrest : m ∈ Term.marksList rest
      · have hne : rest ≠ [] := by
          rintro rfl
          cases hrest
        obtain ⟨u, hmet, hleaves⟩ := Term.exists_meetsList m rest hne hproper.2 w k
        exact ⟨u, fun _ => hmet (.inr hrest), List.subset_append_of_subset_right _ hleaves⟩
      · obtain ⟨u, hmet, hleaves⟩ := term.exists_meets m hproper.1 w k
        refine ⟨u, fun hm => hmet ?_, List.subset_append_of_subset_left _ hleaves⟩
        tauto

private theorem Step.exists_meets (m : Mark) : ∀ (steps : List Step), Step.ProperList steps →
    ∀ (w : Walk) (k : Walk → Formula β), ∃ u, (m ∈ w.marks ∨ m ∈ Step.marksList steps → m ∈ u.marks) ∧
      (k u).leaves ⊆ (Step.reach steps w k).leaves
  | [], _, w, _ => ⟨w, by simp [Step.marksList], List.Subset.refl _⟩
  | .segment name :: rest, hproper, w, k => by
      obtain ⟨u, hmet, hleaves⟩ := Step.exists_meets m rest hproper (w.onto name.value) k
      refine ⟨u, fun hm => hmet ?_, hleaves⟩
      simp only [Step.marksList, List.mem_cons] at hm
      simp only [Walk.onto, List.mem_append, List.mem_singleton]
      tauto
  | .group term :: rest, hproper, w, k => by
      obtain ⟨u, hmet, hleaves⟩ := term.exists_meets m hproper.1 w fun v => Step.reach rest v k
      obtain ⟨v, hmet', hleaves'⟩ := Step.exists_meets m rest hproper.2 u k
      refine ⟨v, fun hm => hmet' ?_, List.Subset.trans hleaves' hleaves⟩
      simp only [Step.marksList, List.mem_append] at hm
      tauto
end

end Reach

namespace Term

variable {term : Term} {tree : Formula RawComparison}

theorem walks_of_expand (h : term.expand = .ok tree) : term.walks = tree.map RawComparison.walk := by
  rw [walks_of_leaves (expand_eq_ok_iff.mp h), Formula.map_map]
  exact Formula.map_congr fun raw _ => raw.after_leaf

theorem marks_of_mem_leaves (h : term.expand = .ok tree) {raw : RawComparison}
    (hraw : raw ∈ tree.leaves) :
    raw.path ≠ [] ∧ (∀ name ∈ raw.path, .name name ∈ term.marks) ∧
      .ending (raw.token, raw.value) ∈ term.marks := by
  have hwalk : raw.walk ∈ (term.reach .start .leaf).leaves := by
    rw [← walks, walks_of_expand h, Formula.leaves_map]
    exact List.mem_map_of_mem hraw
  obtain ⟨v, hv, ⟨name, hfront⟩, hmarks⟩ := term.exists_of_mem_reach _ _ hwalk
  rw [Formula.leaves_leaf, List.mem_singleton] at hv
  subst hv
  simp only [Walk.start, List.not_mem_nil, false_or, RawComparison.walk, List.mem_append,
    List.mem_map, List.mem_singleton] at hmarks
  refine ⟨fun hnil => ?_, fun name hname => hmarks _ (.inl ⟨name, hname, rfl⟩), hmarks _ (.inr rfl)⟩
  simp [Walk.start, RawComparison.walk, hnil] at hfront

/-- The other way round, an ending of the term is the ending of some comparison. -/
theorem exists_leaf_of_ending (h : term.expand = .ok tree) (hproper : term.Proper) {e : Ending}
    (he : .ending e ∈ term.marks) : ∃ raw ∈ tree.leaves, (raw.token, raw.value) = e := by
  obtain ⟨u, hmet, hleaves⟩ := term.exists_meets (.ending e) hproper .start .leaf
  have hu : u ∈ term.walks.leaves := hleaves (by simp)
  rw [walks_of_expand h, Formula.leaves_map, List.mem_map] at hu
  obtain ⟨raw, hraw, rfl⟩ := hu
  have hending := hmet (.inr he)
  simp only [RawComparison.walk, List.mem_append, List.mem_map, List.mem_singleton, reduceCtorEq,
    and_false, exists_false, false_or, Mark.ending.injEq] at hending
  exact ⟨raw, hraw, hending.symm⟩

end Term

open Grammar

/-- A name is a run of name characters; an ending has a bound token and a value that can be read. -/
def Mark.Spelled (operators : OperatorTable) : Mark → Prop
  | .name text => IsRun isNameChar text.toList
  | .ending e => operators.has e.1.value = true ∧
      ∃ v : ValueSpelling, v.WellFormed ∧ v.Representable ∧ v.value = e.2

namespace Grammar

variable {operators operators' : OperatorTable}

private theorem spelled_endings {ending : Option EndingSpelling}
    (hwell : ∀ e ∈ ending, e.WellFormed operators) (hnumber : ∀ e ∈ ending, e.value.Representable)
    (offset : Nat) : ∀ m ∈ (ending.map fun e => e.ending offset).toList.map Mark.ending,
      m.Spelled operators := by
  intro m hm
  cases ending with
  | none => simp at hm
  | some e =>
      obtain ⟨-, hbound, hvalue⟩ := hwell e rfl
      simp only [Option.map_some, Option.toList_some, List.map_cons, List.map_nil,
        List.mem_singleton] at hm
      subst hm
      exact ⟨hbound, e.value, hvalue, hnumber e rfl, rfl⟩

mutual
theorem Chain.spelled_marks {level : Level} : ∀ (chain : Chain level) (offset : Nat),
    chain.WellFormed operators → chain.Representable →
      ∀ m ∈ Term.marksList (chain.terms offset), m.Spelled operators
  | .last part, offset, hwell, hnumber => by
      simpa [Chain.terms, Term.marksList] using part.spelled_marks offset hwell hnumber
  | .cons part before after rest, offset, hwell, hnumber => by
      simp only [Chain.terms, Term.marksList, List.forall_mem_append]
      exact ⟨part.spelled_marks offset hwell.1 hnumber.1,
        rest.spelled_marks _ hwell.2.2.2 hnumber.2⟩

theorem Part.spelled_marks {level : Level} : ∀ (part : Part level) (offset : Nat),
    part.WellFormed operators → part.Representable →
      ∀ m ∈ (part.term offset).marks, m.Spelled operators
  | .conjunction chain, offset, hwell, hnumber => by
      rw [Part.term, Term.marks_collapse_all]
      exact chain.spelled_marks offset hwell hnumber
  | .parentheses before inner after, offset, hwell, hnumber => by
      rw [Part.term, Term.marks_collapse_any]
      exact inner.spelled_marks _ hwell.2.1 hnumber
  | .path head steps ending, offset, hwell, hnumber => by
      simp only [Part.term, Term.marks, List.forall_mem_cons, List.forall_mem_append]
      refine ⟨?_, steps.spelled_marks _ hwell.2.1 hnumber.1,
        spelled_endings hwell.2.2 hnumber.2 _⟩
      simpa [Mark.Spelled] using hwell.1

theorem Steps.spelled_marks : ∀ (steps : Steps) (offset : Nat), steps.WellFormed operators →
    steps.Representable → ∀ m ∈ Step.marksList (steps.steps offset), m.Spelled operators
  | .done, _, _, _ => by simp [Steps.steps, Step.marksList]
  | .segment name rest, offset, hwell, hnumber => by
      simp only [Steps.steps, Step.marksList, List.forall_mem_cons]
      refine ⟨?_, rest.spelled_marks _ hwell.2 hnumber⟩
      simpa [Mark.Spelled] using hwell.1
  | .group before inner after rest, offset, hwell, hnumber => by
      simp only [Steps.steps, Step.marksList, List.forall_mem_append]
      rw [Term.marks_collapse_any]
      exact ⟨inner.spelled_marks _ hwell.2.1 hnumber.1, rest.spelled_marks _ hwell.2.2.2 hnumber.2⟩
end

/-- Every ending among some marks has a token that the table binds. -/
def Binds (operators : OperatorTable) (marks : List Mark) : Prop :=
  ∀ e, Mark.ending e ∈ marks → operators.has e.1.value = true

theorem binds_append {left right : List Mark} :
    Binds operators (left ++ right) ↔ Binds operators left ∧ Binds operators right := by
  simp only [Binds, List.mem_append, or_imp, forall_and]

theorem binds_name_cons {name : String} {marks : List Mark} :
    Binds operators (.name name :: marks) ↔ Binds operators marks := by
  simp [Binds]

mutual
/-- Tokens are all that a derivation takes from a table. -/
theorem Chain.wellFormed_of_binds {level : Level} : ∀ (chain : Chain level) (offset : Nat),
    chain.WellFormed operators → Binds operators' (Term.marksList (chain.terms offset)) →
      chain.WellFormed operators'
  | .last part, offset, hwell, hbinds => by
      simp only [Chain.terms, Term.marksList, List.append_nil] at hbinds
      exact part.wellFormed_of_binds offset hwell hbinds
  | .cons part before after rest, offset, hwell, hbinds => by
      simp only [Chain.terms, Term.marksList, binds_append] at hbinds
      obtain ⟨hpart, hbefore, hafter, hrest⟩ := hwell
      exact ⟨part.wellFormed_of_binds offset hpart hbinds.1, hbefore, hafter,
        rest.wellFormed_of_binds _ hrest hbinds.2⟩

theorem Part.wellFormed_of_binds {level : Level} : ∀ (part : Part level) (offset : Nat),
    part.WellFormed operators → Binds operators' (part.term offset).marks →
      part.WellFormed operators'
  | .conjunction chain, offset, hwell, hbinds => by
      rw [Part.term, Term.marks_collapse_all] at hbinds
      exact chain.wellFormed_of_binds offset hwell hbinds
  | .parentheses before inner after, offset, hwell, hbinds => by
      rw [Part.term, Term.marks_collapse_any] at hbinds
      exact ⟨hwell.1, inner.wellFormed_of_binds _ hwell.2.1 hbinds, hwell.2.2⟩
  | .path head steps ending, offset, hwell, hbinds => by
      simp only [Part.term, Term.marks, binds_name_cons, binds_append] at hbinds
      refine ⟨hwell.1, steps.wellFormed_of_binds _ hwell.2.1 hbinds.1, fun e he => ?_⟩
      obtain ⟨htoken, -, hvalue⟩ := hwell.2.2 e he
      refine ⟨htoken, hbinds.2 (e.ending (offset + byteLength (head ++ steps.chars))) ?_, hvalue⟩
      simp [Option.mem_def.mp he]

theorem Steps.wellFormed_of_binds : ∀ (steps : Steps) (offset : Nat), steps.WellFormed operators →
    Binds operators' (Step.marksList (steps.steps offset)) → steps.WellFormed operators'
  | .done, _, _, _ => trivial
  | .segment name rest, offset, hwell, hbinds => by
      simp only [Steps.steps, Step.marksList, binds_name_cons] at hbinds
      exact ⟨hwell.1, rest.wellFormed_of_binds _ hwell.2 hbinds⟩
  | .group before inner after rest, offset, hwell, hbinds => by
      simp only [Steps.steps, Step.marksList, binds_append] at hbinds
      rw [Term.marks_collapse_any] at hbinds
      exact ⟨hwell.1, inner.wellFormed_of_binds _ hwell.2.1 hbinds.1, hwell.2.2.1,
        rest.wellFormed_of_binds _ hwell.2.2.2 hbinds.2⟩
end

namespace Derivation

variable {source : String} {d : Derivation}

theorem Derives.spelled_marks (h : d.Derives operators source) (hnumber : d.Representable) :
    ∀ m ∈ d.term.marks, m.Spelled operators := by
  rw [term, Chain.term, Term.marks_collapse]
  exact d.expression.spelled_marks _ h.well.2.1 hnumber

theorem Derives.of_binds (h : d.Derives operators source) (hbinds : Binds operators' d.term.marks) :
    d.Derives operators' source := by
  rw [term, Chain.term, Term.marks_collapse] at hbinds
  exact ⟨⟨h.well.1, d.expression.wellFormed_of_binds _ h.well.2.1 hbinds, h.well.2.2⟩, h.chars⟩

end Derivation

end Grammar

end RequestQuery
