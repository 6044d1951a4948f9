import RequestQuery.Filter.Normal
import RequestQuery.Proofs.Filter.Alternatives
import RequestQuery.Proofs.Filter.Settings

/-!
# Normalization

A tree of comparisons is normalized when the table accepts every leaf, and otherwise the first leaf
that it does not accept decides the error. The normal form is true exactly when the tree is, and lists
its alternatives in the order of the leaves.
-/

namespace RequestQuery

namespace OperatorTable

/-- The token is bound, and a range stands behind `=` or `!=` only. -/
def Accepts (operators : OperatorTable) (raw : RawComparison) : Prop :=
  (∃ operator, operators.find? raw.token.value = some operator) ∧
    (raw.value.isRange = true → raw.token.value = "=" ∨ raw.token.value = "!=")

private theorem Lawful.forRange? {operators : OperatorTable} (h : operators.Lawful) {token : String}
    {operator : Operator} (htoken : token = "=" ∨ token = "!=")
    (hbound : operators.find? token = some operator) :
    ∃ derived, operator.forRange? = some derived := by
  rcases htoken with rfl | rfl
  · rw [h.basic "=" .equal rfl] at hbound
    cases hbound
    exact ⟨.between, rfl⟩
  · rw [h.basic "!=" .notEqual rfl] at hbound
    cases hbound
    exact ⟨.notBetween, rfl⟩

theorem Lawful.resolve_ok_iff {operators : OperatorTable} (h : operators.Lawful)
    (raw : RawComparison) :
    (∃ comparison, operators.resolve raw = .ok comparison) ↔ operators.Accepts raw := by
  cases hbound : operators.find? raw.token.value with
  | none => simp [resolve, Accepts, hbound]
  | some operator =>
      cases hrange : raw.value.isRange with
      | false => simp [resolve, Accepts, hbound, hrange]
      | true =>
          by_cases htoken : raw.token.value = "=" ∨ raw.token.value = "!="
          · obtain ⟨derived, hderived⟩ := h.forRange? htoken hbound
            simp [resolve, Accepts, hbound, hrange, htoken, hderived]
          · simp [resolve, Accepts, hbound, hrange, htoken]

end OperatorTable

namespace Filter

def holds (truth : Comparison → Bool) (filter : Filter) : Bool :=
  filter.alternatives.any fun part => part.all truth

theorem normalize_eq_ok_iff {tree : Formula RawComparison} {settings : FilterSettings}
    {source : String} {filter : Filter} :
    normalize tree settings source = .ok filter ↔
      ∃ resolved, tree.traverse settings.operators.resolve = .ok resolved ∧
        filter = ⟨resolved.alternatives⟩ := by
  simp only [normalize, normalizeFault]
  cases tree.traverse settings.operators.resolve with
  | ok resolved => simp [report, eq_comm]
  | error fault => simp [report]

theorem normalize_eq_error_iff {tree : Formula RawComparison} {settings : FilterSettings}
    {source : String} {error : QueryError} :
    normalize tree settings source = .error error ↔
      ∃ fault, tree.traverse settings.operators.resolve = .error fault ∧
        fault.toError source = error := by
  simp only [normalize, normalizeFault]
  cases tree.traverse settings.operators.resolve with
  | ok resolved => simp [report]
  | error fault => simp [report]

/-- Normalization succeeds when the table accepts every leaf, and its error is the one of the first leaf
from the left that is not accepted. The result has the truth value of the tree with every comparison
resolved. Its alternatives are choices of leaves in their order, they come in lexicographic order of
the places of these leaves, and there are as many as the parts of the tree give. -/
theorem normalize_characterized (settings : FilterSettings) (hs : settings.Reachable)
    (tree : Formula RawComparison) (source : String) :
    ((∃ filter, normalize tree settings source = .ok filter) ↔
      ∀ raw ∈ tree.leaves, settings.operators.Accepts raw) ∧
    (∀ error, normalize tree settings source = .error error ↔
      ∃ before raw after, tree.leaves = before ++ raw :: after ∧
        (∀ earlier ∈ before, settings.operators.Accepts earlier) ∧
        report source (settings.operators.resolve raw) = .error error) ∧
    ∀ filter, normalize tree settings source = .ok filter →
      (∃ resolved : Formula Comparison,
        resolved.map .ok = tree.map settings.operators.resolve ∧
        ∀ truth, filter.holds truth = resolved.eval truth) ∧
      (tree.Branching 1 → ∃ choices : List (List (Fin tree.leaves.length)),
        filter.alternatives.map (List.map .ok) =
          choices.map (List.map fun place => settings.operators.resolve (tree.leaves.get place)) ∧
        (∀ choice ∈ choices, choice.Pairwise (· < ·)) ∧
        choices.Pairwise (List.Lex (· < ·)) ∧
        choices.length = tree.spread) := by
  have hresolve := hs.lawful.resolve_ok_iff
  refine ⟨?_, ?_, ?_⟩
  · have hok : (∃ filter, normalize tree settings source = .ok filter) ↔
        Formula.refusal (tree.traverse settings.operators.resolve) = none := by
      simp only [normalize_eq_ok_iff, Formula.refusal_eq_none]
      constructor
      · rintro ⟨_, resolved, h, -⟩
        exact ⟨resolved, h⟩
      · rintro ⟨resolved, h⟩
        exact ⟨_, resolved, h, rfl⟩
    rw [hok, Formula.refusal_traverse, List.findSome?_eq_none_iff]
    simp only [Function.comp_apply, Formula.refusal_eq_none, hresolve]
  · intro error
    have hfault : ∀ fault, tree.traverse settings.operators.resolve = .error fault ↔
        ∃ before raw after, tree.leaves = before ++ raw :: after ∧
          settings.operators.resolve raw = .error fault ∧
          ∀ earlier ∈ before, settings.operators.Accepts earlier := by
      intro fault
      rw [← Formula.refusal_eq_some, Formula.refusal_traverse, List.findSome?_eq_some_iff]
      simp only [Function.comp_apply, Formula.refusal_eq_some, Formula.refusal_eq_none, hresolve]
    rw [normalize_eq_error_iff]
    constructor
    · rintro ⟨fault, htraverse, rfl⟩
      obtain ⟨before, raw, after, hleaves, hraw, hbefore⟩ := (hfault fault).mp htraverse
      exact ⟨before, raw, after, hleaves, hbefore, by rw [hraw]; rfl⟩
    · rintro ⟨before, raw, after, hleaves, hbefore, hraw⟩
      cases hraw' : settings.operators.resolve raw with
      | ok comparison => simp [hraw', report] at hraw
      | error fault =>
          rw [hraw'] at hraw
          exact ⟨fault, (hfault fault).mpr ⟨before, raw, after, hleaves, hraw', hbefore⟩,
            by simpa [report] using hraw⟩
  · intro filter hfilter
    obtain ⟨resolved, htraverse, rfl⟩ := normalize_eq_ok_iff.mp hfilter
    have hmap := Formula.map_of_traverse_eq_ok htraverse
    refine ⟨⟨resolved, hmap.symm, fun truth => Formula.someHolds_alternatives truth resolved⟩, ?_⟩
    intro hbranching
    obtain ⟨choices, hchoices, hincreasing, hlex⟩ := Formula.exists_choices hbranching
    refine ⟨choices, ?_, hincreasing, hlex, ?_⟩
    · rw [← Formula.alternatives_map, ← hmap, Formula.alternatives_map, hchoices, List.map_map]
      simp [Function.comp_def]
    · rw [← Formula.length_alternatives, hchoices, List.length_map]

/-- The tree of `(a=1 OR b=2) AND c!=3..4`. -/
def crossTree : Formula RawComparison :=
  .all [
    .any [
      .leaf ⟨["a"], ⟨"=", ⟨2, 3⟩⟩, .single (.integer 1), ⟨1, 4⟩⟩,
      .leaf ⟨["b"], ⟨"=", ⟨9, 10⟩⟩, .single (.integer 2), ⟨8, 11⟩⟩],
    .leaf ⟨["c"], ⟨"!=", ⟨18, 20⟩⟩, .range (.integer 3) (.integer 4), ⟨17, 24⟩⟩]

theorem normalize_characterized_crossTree :
    FilterSettings.initial.Reachable ∧
    ∃ filter, normalize crossTree .initial "(a=1 OR b=2) AND c!=3..4" = .ok filter ∧
      ∃ choices : List (List (Fin crossTree.leaves.length)),
        filter.alternatives.map (List.map .ok) = choices.map (List.map fun place =>
          FilterSettings.initial.operators.resolve (crossTree.leaves.get place)) ∧
        choices.Pairwise (List.Lex (· < ·)) ∧ choices.length = 2 := by
  obtain ⟨hok, -, hresult⟩ := normalize_characterized .initial .initial crossTree
    "(a=1 OR b=2) AND c!=3..4"
  have haccepts : ∀ raw ∈ crossTree.leaves, FilterSettings.initial.operators.Accepts raw := by
    simp only [crossTree, Formula.leaves_all, Formula.leaves_any, Formula.leaves_leaf,
      List.flatMap_cons, List.flatMap_nil, List.cons_append, List.nil_append, List.mem_cons,
      List.not_mem_nil, or_false, forall_eq_or_imp, forall_eq]
    refine ⟨⟨⟨.equal, rfl⟩, ?_⟩, ⟨⟨.equal, rfl⟩, ?_⟩, ⟨⟨.notEqual, rfl⟩, ?_⟩⟩ <;> decide
  obtain ⟨filter, hfilter⟩ := hok.mpr haccepts
  have hbranching : crossTree.Branching 1 := by
    simp [crossTree, Formula.Branching, Formula.BranchingList]
  obtain ⟨choices, hchoices, -, hlex, hlength⟩ := (hresult filter hfilter).2 hbranching
  exact ⟨.initial, filter, hfilter, choices, hchoices, hlex, hlength⟩

end Filter

end RequestQuery
