import RequestQuery.Proofs.Filter.Expansion
import RequestQuery.Proofs.Filter.Normalization
import RequestQuery.Proofs.Filter.Unambiguity
import RequestQuery.Proofs.Reading.Balanced
import Mathlib.Data.List.Forall2

/-!
# What a derivation means

The text of a derivation is balanced, its brackets nest as deep as the derivation does, and the
alternatives its term stands for are put together from those of its parts. So a derivation tells what
a filter text is read as, part by part.
-/

namespace RequestQuery

namespace Grammar

private theorem Spelling.balanced {s : Spelling} (h : s.WellFormed) (n : Nat) :
    Balanced n s.chars := by
  cases s with
  | quoted cs => exact .quoted n cs
  | boolean b => cases b <;> exact .of_all (by decide) n
  | null => exact .of_all (by decide) n
  | number numeral =>
      obtain ⟨negative, whole, fraction⟩ := numeral
      have hdigits : ∀ {digits : List Char}, IsRun Char.isDigit digits → digits.all isPlain = true :=
        fun hdigits => all_isPlain (by decide) hdigits.2
      apply Balanced.of_all
      simp only [Spelling.chars, Numeral.chars, List.all_append, Bool.and_eq_true]
      refine ⟨⟨by cases negative <;> rfl, hdigits h.1⟩, ?_⟩
      cases fraction with
      | none => rfl
      | some digits =>
          rw [List.all_cons, hdigits (h.2 digits rfl)]
          rfl

private theorem ValueSpelling.balanced {v : ValueSpelling} (h : v.WellFormed) (n : Nat) :
    Balanced n v.chars := by
  cases v with
  | single s => exact Spelling.balanced (h s (by simp [literals])) n
  | range first last =>
      have hpoints : Balanced n ['.', '.'] := .of_all (by decide) n
      exact (Spelling.balanced (h first (by simp [literals])) n).append
        (hpoints.append (Spelling.balanced (h last (by simp [literals])) n))
  | set first second more =>
      have hmore : ∀ rest : List Spelling, (∀ s ∈ rest, s.WellFormed) →
          Balanced n (rest.flatMap fun s => ',' :: s.chars) := by
        intro rest hrest
        induction rest with
        | nil => exact .nil n
        | cons s rest ih =>
            rw [List.forall_mem_cons] at hrest
            rw [List.flatMap_cons]
            have hcomma : Balanced n [','] := .plain n (by decide)
            exact (hcomma.append (Spelling.balanced hrest.1 n)).append (ih hrest.2)
      exact (Spelling.balanced (h first (by simp [literals])) n).append
        (hmore _ fun s hs => h s (List.mem_cons_of_mem _ hs))

theorem ending_balanced {operators : OperatorTable} {ending : Option EndingSpelling}
    (h : ∀ e ∈ ending, e.WellFormed operators) (n : Nat) :
    Balanced n (ending.elim [] EndingSpelling.chars) := by
  cases ending with
  | none => exact .nil n
  | some e =>
      obtain ⟨htoken, -, hvalue⟩ := h e rfl
      exact (Balanced.of_all (all_isPlain (by decide) htoken.2) n).append
        (ValueSpelling.balanced hvalue n)

theorem separators_balanced {cs : List Char} (h : cs.all isSeparator = true) (n : Nat) :
    Balanced n cs :=
  .of_all (all_isPlain (by decide) h) n

theorem name_balanced {cs : List Char} (h : IsRun isNameChar cs) (n : Nat) : Balanced n cs :=
  .of_all (all_isPlain (by decide) h.2) n

section Derivations

variable {operators : OperatorTable}

mutual
theorem Chain.balanced {level : Level} : ∀ (chain : Chain level), chain.WellFormed operators →
    ∀ n, chain.depth ≤ n → Balanced n chain.chars
  | .last part, hwell, n, hdepth => part.balanced hwell n hdepth
  | .cons part before after more, hwell, n, hdepth => by
      obtain ⟨hpart, hbefore, hafter, hmore⟩ := hwell
      simp only [Chain.depth, Nat.max_le] at hdepth
      have hletters : Balanced n level.letters := .of_all (by cases level <;> decide) n
      exact (part.balanced hpart n hdepth.1).append ((separators_balanced hbefore.2 n).append
        (hletters.append ((separators_balanced hafter.2 n).append (more.balanced hmore n hdepth.2))))

theorem Part.balanced {level : Level} : ∀ (part : Part level), part.WellFormed operators →
    ∀ n, part.depth ≤ n → Balanced n part.chars
  | .conjunction chain, hwell, n, hdepth => chain.balanced hwell n hdepth
  | .parentheses before inner after, hwell, n + 1, hdepth => by
      obtain ⟨hbefore, hinner, hafter⟩ := hwell
      have hinside := (separators_balanced hbefore n).append
        ((inner.balanced hinner n (Nat.le_of_succ_le_succ hdepth)).append
          (separators_balanced hafter n))
      simpa [Part.chars] using hinside.parentheses
  | .path head steps ending, hwell, n, hdepth =>
      (name_balanced hwell.1 n).append ((steps.balanced hwell.2.1 n hdepth).append
        (ending_balanced hwell.2.2 n))

theorem Steps.balanced : ∀ (steps : Steps), steps.WellFormed operators →
    ∀ n, steps.depth ≤ n → Balanced n steps.chars
  | .done, _, n, _ => .nil n
  | .segment name more, hwell, n, hdepth => by
      have hpoint : Balanced n ['.'] := .plain n (by decide)
      exact hpoint.append ((name_balanced hwell.1 n).append (more.balanced hwell.2 n hdepth))
  | .group before inner after more, _, 0, hdepth => by simp [Steps.depth] at hdepth
  | .group before inner after more, hwell, n + 1, hdepth => by
      obtain ⟨hbefore, hinner, hafter, hmore⟩ := hwell
      simp only [Steps.depth, Nat.max_le] at hdepth
      have hinside := (separators_balanced hbefore n).append
        ((inner.balanced hinner n (Nat.le_of_succ_le_succ hdepth.1)).append
          (separators_balanced hafter n))
      simpa [Steps.chars] using hinside.brackets.append (more.balanced hmore (n + 1) hdepth.2)
end

theorem Derivation.Derives.balanced {source : String} {d : Derivation}
    (h : d.Derives operators source) : Balanced d.expression.depth source.toList := by
  rw [← h.chars]
  exact (separators_balanced h.well.1 _).append
    ((d.expression.balanced h.well.2.1 _ Nat.le.refl).append (separators_balanced h.well.2.2 _))

theorem Derivation.Derives.check_eq_ok {source : String} {d : Derivation}
    (h : d.Derives operators source) {limit : Nat} (hdepth : d.expression.depth ≤ limit) :
    Nesting.check source limit = .ok () :=
  Nesting.check_eq_ok_of_balanced h.balanced hdepth

end Derivations

end Grammar

/-- Every choice of one alternative from each list; the last list's vary fastest. -/
def cross {α : Type} : List (List (List α)) → List (List α)
  | [] => [[]]
  | left :: rest => left.flatMap fun l => (cross rest).map fun r => l ++ r

@[simp] theorem cross_singleton {α : Type} (left : List (List α)) : cross [left] = left := by
  simp [cross]

theorem Formula.allAlternatives_eq_cross {α : Type} (parts : List (Formula α)) :
    allAlternatives parts = cross (parts.map alternatives) := by
  induction parts with
  | nil => rfl
  | cons part rest ih => rw [allAlternatives, ih, List.map_cons, cross]

namespace Term

/-- A term stands for a list of alternatives. -/
def Means (operators : OperatorTable) (term : Term) (alternatives : List (List Comparison)) : Prop :=
  ∃ (tree : Formula RawComparison) (resolved : Formula Comparison), term.expand = .ok tree ∧
    tree.map operators.resolve = resolved.map .ok ∧ resolved.alternatives = alternatives

variable {operators : OperatorTable}

private theorem meansList {terms : List Term} {meanings : List (List (List Comparison))}
    (h : List.Forall₂ (Means operators) terms meanings) :
    ∃ (trees : List (Formula RawComparison)) (resolved : List (Formula Comparison)),
      leavesList terms = .ok (trees.map (Formula.map RawComparison.leaf)) ∧
      trees.map (Formula.map operators.resolve) = resolved.map (Formula.map .ok) ∧
      resolved.map Formula.alternatives = meanings := by
  induction h with
  | nil => exact ⟨[], [], rfl, rfl, rfl⟩
  | cons hterm _ ih =>
      obtain ⟨tree, resolved, hexpand, hresolve, rfl⟩ := hterm
      obtain ⟨trees, more, hleaves, hmore, rfl⟩ := ih
      refine ⟨tree :: trees, resolved :: more, ?_, ?_, rfl⟩
      · rw [leavesList, expand_eq_ok_iff.mp hexpand, hleaves]
        rfl
      · rw [List.map_cons, hresolve, hmore, List.map_cons]

theorem means_any {terms : List Term} {meanings : List (List (List Comparison))}
    (h : List.Forall₂ (Means operators) terms meanings) :
    (Term.any terms).Means operators meanings.flatten := by
  obtain ⟨trees, resolved, hleaves, hresolve, rfl⟩ := meansList h
  refine ⟨.any trees, .any resolved, ?_, ?_, ?_⟩
  · rw [expand_eq_ok_iff, leaves, hleaves, Formula.map_any]
  · rw [Formula.map_any, hresolve, Formula.map_any]
  · rw [Formula.alternatives, Formula.anyAlternatives_eq_flatMap, List.flatMap_def]

theorem means_all {terms : List Term} {meanings : List (List (List Comparison))}
    (h : List.Forall₂ (Means operators) terms meanings) :
    (Term.all terms).Means operators (cross meanings) := by
  obtain ⟨trees, resolved, hleaves, hresolve, rfl⟩ := meansList h
  refine ⟨.all trees, .all resolved, ?_, ?_, ?_⟩
  · rw [expand_eq_ok_iff, leaves, hleaves, Formula.map_all]
  · rw [Formula.map_all, hresolve, Formula.map_all]
  · rw [Formula.alternatives, Formula.allAlternatives_eq_cross]

end Term

/-- How the connective of a level joins alternatives. -/
def Grammar.Level.joins {α : Type} : Level → List (List (List α)) → List (List α)
  | .any => List.flatten
  | .all => cross

theorem Grammar.collapse_means {operators : OperatorTable} (level : Level) {terms : List Term}
    {meanings : List (List (List Comparison))}
    (h : List.Forall₂ (Term.Means operators) terms meanings) :
    (Term.collapse level.wrap terms).Means operators (level.joins meanings) := by
  match terms, meanings, h with
  | [term], [meaning], .cons hterm .nil =>
      have hsingle : level.joins [meaning] = meaning := by cases level <;> simp [Level.joins]
      rwa [hsingle]
  | [], _, h | _ :: _ :: _, _, h =>
      cases level with
      | any => exact Term.means_any h
      | all => exact Term.means_all h

namespace Filter

open Grammar

/-- A text with a derivation that is not too deep is read as the alternatives of its term. -/
theorem parse_eq_ok_of_derives {settings : FilterSettings} {source : String} {d : Derivation}
    (h : d.Derives settings.operators source) (hnumber : d.Representable)
    (hdepth : d.expression.depth ≤ settings.maxDepth) {alternatives : List (List Comparison)}
    (hmeans : d.term.Means settings.operators alternatives) :
    parse source settings = .ok ⟨alternatives⟩ := by
  obtain ⟨tree, resolved, hexpand, hresolve, rfl⟩ := hmeans
  have htree : parseTree source settings = .ok tree :=
    parseTree_eq_ok_iff.mpr ⟨h.check_eq_ok hdepth, d, h, hnumber, hexpand⟩
  rw [parse, htree]
  exact normalize_eq_ok_iff.mpr ⟨resolved, Formula.traverse_eq_ok_iff.mpr hresolve, rfl⟩

end Filter

end RequestQuery
