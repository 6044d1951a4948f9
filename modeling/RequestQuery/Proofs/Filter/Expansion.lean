import RequestQuery.Proofs.Filter.Walk

/-!
# Expansion

Bracket short-hands are expanded when every walk through a term meets one ending and meets it last, and
the result is the formula of the walks. Otherwise the code of the error tells whether some walk goes on
behind its ending or only some never meet one.
-/

namespace RequestQuery

def RawComparison.walk (raw : RawComparison) : Walk :=
  ⟨raw.path.map .name ++ [.ending (raw.token, raw.value)], raw.span⟩

def RawComparison.leaf (raw : RawComparison) : Leaf :=
  ⟨raw.path, some (raw.token, raw.value), raw.span⟩

theorem RawComparison.after_leaf (raw : RawComparison) :
    raw.leaf.after .start = raw.walk := by
  simp [walk, leaf, Leaf.after, Walk.start]

private theorem RawComparison.walk_complete (raw : RawComparison) : raw.walk.Complete :=
  ⟨raw.path, (raw.token, raw.value), rfl⟩

private theorem Walk.Complete.not_overrun {w : Walk} (h : w.Complete) : ¬w.Overrun := by
  obtain ⟨names, e, hmarks⟩ := h
  have hleaf : w.marks = ((⟨names, some e, w.span⟩ : Leaf).after .start).marks := by
    simp [hmarks, Leaf.after, Walk.start]
  unfold Walk.Overrun
  rw [hleaf]
  exact Leaf.not_overrun_after _

private def Walk.leaf (w : Walk) : Leaf where
  path := w.marks.filterMap fun
    | .name name => some name
    | .ending _ => none
  ending := (w.marks.filterMap fun
    | .name _ => none
    | .ending e => some e).head?
  span := w.span

private theorem Leaf.after_injective : Function.Injective fun leaf : Leaf => leaf.after .start := by
  have hleaf : Function.LeftInverse Walk.leaf fun leaf : Leaf => leaf.after .start := by
    rintro ⟨path, ending, span⟩
    cases ending <;> simp [Walk.leaf, Leaf.after, Walk.start, List.filterMap_map]
  exact hleaf.injective

private theorem Leaf.finish_eq_ok {leaf : Leaf} {raw : RawComparison} (h : leaf.finish = .ok raw) :
    leaf = raw.leaf := by
  unfold Leaf.finish at h
  split at h <;> cases h
  next token value hending => rw [RawComparison.leaf, ← hending]

private theorem Leaf.finish_eq_error {leaf : Leaf} {fault : Fault} (h : leaf.finish = .error fault) :
    leaf.ending = none ∧ fault.cause.code = .missingOperator := by
  unfold Leaf.finish at h
  split at h <;> cases h
  next hending => exact ⟨hending, rfl⟩

namespace Term

theorem walks_of_leaves {term : Term} {formula : Formula Leaf}
    (h : term.leaves = .ok formula) : term.walks = formula.map fun leaf => leaf.after .start := by
  rw [walks, term.reach_of_leaves h, Formula.map_eq_graft]

private theorem walks_of_leaves_error {term : Term} (hproper : term.Proper) {fault : Fault}
    (h : term.leaves = .error fault) :
    fault.cause.code = .unexpectedToken ∧ ∃ walk ∈ term.walks.leaves, walk.Overrun := by
  obtain ⟨hcode, hreach⟩ := term.overrun_of_leaves h hproper
  exact ⟨hcode, hreach .start .leaf extends_leaf⟩

private theorem not_overrun_of_leaves {term : Term} {formula : Formula Leaf}
    (h : term.leaves = .ok formula) : ¬∃ walk ∈ term.walks.leaves, walk.Overrun := by
  rintro ⟨walk, hwalk, hoverrun⟩
  rw [walks_of_leaves h, Formula.leaves_map, List.mem_map] at hwalk
  obtain ⟨leaf, -, rfl⟩ := hwalk
  exact leaf.not_overrun_after hoverrun

theorem expand_eq_ok_iff {term : Term} {tree : Formula RawComparison} :
    term.expand = .ok tree ↔ term.leaves = .ok (tree.map RawComparison.leaf) := by
  unfold expand
  cases hleaves : term.leaves with
  | error fault => simp
  | ok formula =>
      simp only [Formula.traverse_eq_ok_iff, Except.ok.injEq]
      constructor
      · intro h
        let leafOf : Except Fault RawComparison → Leaf
          | .ok raw => raw.leaf
          | .error _ => ⟨[], none, .point 0⟩
        have hok : ∀ leaf ∈ formula.leaves, leafOf leaf.finish = id leaf := by
          intro leaf hleaf
          have hmem : leaf.finish ∈ (tree.map (Except.ok : _ → Except Fault _)).leaves := by
            rw [← h, Formula.leaves_map]
            exact List.mem_map_of_mem hleaf
          rw [Formula.leaves_map, List.mem_map] at hmem
          obtain ⟨raw, -, hraw⟩ := hmem
          rw [← hraw]
          exact (Leaf.finish_eq_ok hraw.symm).symm
        calc formula
          _ = formula.map id := by rw [Formula.map_id]
          _ = formula.map (leafOf ∘ Leaf.finish) := (Formula.map_congr hok).symm
          _ = (tree.map .ok).map leafOf := by rw [← Formula.map_map, h]
          _ = tree.map RawComparison.leaf := by rw [Formula.map_map]; rfl
      · rintro rfl
        rw [Formula.map_map]
        rfl

/-- The tree of an expansion has the walks of the term, and no other tree has them. -/
private theorem expand_eq_ok_iff_walks {term : Term} (hproper : term.Proper)
    (tree : Formula RawComparison) :
    term.expand = .ok tree ↔ term.walks = tree.map RawComparison.walk := by
  have hwalks : tree.map RawComparison.walk =
      (tree.map RawComparison.leaf).map fun leaf => leaf.after .start := by
    rw [Formula.map_map]
    exact Formula.map_congr fun raw _ => raw.after_leaf.symm
  rw [expand_eq_ok_iff, hwalks]
  refine ⟨walks_of_leaves, fun heq => ?_⟩
  cases hleaves : term.leaves with
  | ok formula =>
      rw [walks_of_leaves hleaves] at heq
      rw [Formula.map_injective Leaf.after_injective heq]
  | error fault =>
      obtain ⟨-, walk, hwalk, hoverrun⟩ := walks_of_leaves_error hproper hleaves
      rw [heq, ← hwalks, Formula.leaves_map, List.mem_map] at hwalk
      obtain ⟨raw, -, rfl⟩ := hwalk
      exact absurd hoverrun raw.walk_complete.not_overrun

private theorem exists_expand_of_complete {term : Term} (hproper : term.Proper)
    (h : ∀ walk ∈ term.walks.leaves, walk.Complete) : ∃ tree, term.expand = .ok tree := by
  cases hleaves : term.leaves with
  | error fault =>
      obtain ⟨-, walk, hwalk, hoverrun⟩ := walks_of_leaves_error hproper hleaves
      exact absurd hoverrun (h walk hwalk).not_overrun
  | ok formula =>
      rw [walks_of_leaves hleaves, Formula.leaves_map] at h
      have hnone : Formula.refusal (formula.traverse Leaf.finish) = none := by
        rw [Formula.refusal_traverse, List.findSome?_eq_none_iff]
        intro leaf hleaf
        have hclosed := Leaf.complete_after.mp (h _ (List.mem_map_of_mem hleaf))
        cases hfinish : leaf.finish with
        | ok raw => simp [Formula.refusal, hfinish]
        | error fault => exact absurd (Leaf.finish_eq_error hfinish).1 hclosed
      obtain ⟨tree, htraverse⟩ := Formula.refusal_eq_none.mp hnone
      exact ⟨tree, by rw [expand, hleaves]; exact htraverse⟩

/-- A pass fails at a walk behind an ending. If none does, some leaf is left open. -/
theorem fault_of_expand {term : Term} (hproper : term.Proper) {fault : Fault}
    (h : term.expand = .error fault) :
    ((∃ walk ∈ term.walks.leaves, walk.Overrun) ∧ fault.cause.code = .unexpectedToken) ∨
    ((¬∃ walk ∈ term.walks.leaves, walk.Overrun) ∧ fault.cause.code = .missingOperator ∧
      ∃ walk ∈ term.walks.leaves, walk.Open) := by
  unfold expand at h
  cases hleaves : term.leaves with
  | error fault' =>
      rw [hleaves] at h
      cases h
      obtain ⟨hcode, hoverrun⟩ := walks_of_leaves_error hproper hleaves
      exact .inl ⟨hoverrun, hcode⟩
  | ok formula =>
      rw [hleaves] at h
      have hrefusal := Formula.refusal_eq_some.mpr h
      rw [Formula.refusal_traverse] at hrefusal
      obtain ⟨leaf, hleaf, hfinish⟩ := List.exists_of_findSome?_eq_some hrefusal
      obtain ⟨hopen, hcode⟩ := Leaf.finish_eq_error (Formula.refusal_eq_some.mp hfinish)
      refine .inr ⟨not_overrun_of_leaves hleaves, hcode, leaf.after .start, ?_, leaf.path, ?_⟩
      · rw [walks_of_leaves hleaves, Formula.leaves_map]
        exact List.mem_map_of_mem hleaf
      · simp [Leaf.after, Walk.start, hopen]

/-- Expansion of a term that was read. It gives a tree exactly if the walks through the term are the
walks of its comparisons, and it gives one exactly if every walk is complete. If it fails, the code tells
whether some walk goes on behind an ending, or some never meets one. -/
theorem expand_iff_walks {operators : OperatorTable} {source : String} {term : Term}
    (h : Term.parse operators source = .ok term) :
    (∀ tree, term.expand = .ok tree ↔ term.walks = tree.map RawComparison.walk) ∧
    ((∃ tree, term.expand = .ok tree) ↔ ∀ walk ∈ term.walks.leaves, walk.Complete) ∧
    ∀ error, report source term.expand = .error error →
      ((∃ walk ∈ term.walks.leaves, walk.Overrun) → error.code = .unexpectedToken) ∧
      ((¬∃ walk ∈ term.walks.leaves, walk.Overrun) →
        error.code = .missingOperator ∧ ∃ walk ∈ term.walks.leaves, walk.Open) := by
  have hproper := proper_of_parse h
  have htree := expand_eq_ok_iff_walks hproper
  refine ⟨htree, ⟨?_, exists_expand_of_complete hproper⟩, fun error herror => ?_⟩
  · rintro ⟨tree, hexpand⟩ walk hwalk
    rw [(htree tree).mp hexpand, Formula.leaves_map, List.mem_map] at hwalk
    obtain ⟨raw, -, rfl⟩ := hwalk
    exact raw.walk_complete
  · cases hexpand : term.expand with
    | ok tree => simp [hexpand, report] at herror
    | error fault =>
        rw [hexpand, report, Except.error.injEq] at herror
        subst herror
        rw [Fault.code_toError]
        rcases fault_of_expand hproper hexpand with ⟨hoverrun, hcode⟩ | ⟨hnot, hopen⟩
        · exact ⟨fun _ => hcode, fun hnot => absurd hoverrun hnot⟩
        · exact ⟨fun hoverrun => absurd hoverrun hnot, fun _ => hopen⟩

open Grammar in
/-- The derivation of `a[b OR c[d AND e]].f=null`. -/
def nestedDerivation : Derivation where
  before := []
  expression := .last (.conjunction (.last (.path ['a']
    (.group []
      (.cons (.conjunction (.last (.path ['b'] .done none))) [' '] [' ']
        (.last (.conjunction (.last (.path ['c']
          (.group []
            (.last (.conjunction
              (.cons (.path ['d'] .done none) [' '] [' '] (.last (.path ['e'] .done none))))) []
            .done) none))))) []
      (.segment ['f'] .done))
    (some ⟨['='], .single .null⟩))))
  after := []

open Grammar in
/-- The derivation of `a[b=true OR c].d=null`. -/
def mixedDerivation : Derivation where
  before := []
  expression := .last (.conjunction (.last (.path ['a']
    (.group []
      (.cons (.conjunction (.last (.path ['b'] .done (some ⟨['='], .single (.boolean true)⟩))))
        [' '] [' '] (.last (.conjunction (.last (.path ['c'] .done none))))) []
      (.segment ['d'] .done))
    (some ⟨['='], .single .null⟩))))
  after := []

theorem expand_iff_walks_brackets :
    Term.parse .initial "a[b OR c[d AND e]].f=null" = .ok nestedDerivation.term ∧
    nestedDerivation.term.expand = .ok (.any [
      .leaf ⟨["a", "b", "f"], ⟨"=", ⟨20, 21⟩⟩, .single .null, ⟨2, 3⟩⟩,
      .all [
        .leaf ⟨["a", "c", "d", "f"], ⟨"=", ⟨20, 21⟩⟩, .single .null, ⟨9, 10⟩⟩,
        .leaf ⟨["a", "c", "e", "f"], ⟨"=", ⟨20, 21⟩⟩, .single .null, ⟨15, 16⟩⟩]]) ∧
    Term.parse .initial "a[b=true OR c].d=null" = .ok mixedDerivation.term ∧
    ∃ error, report "a[b=true OR c].d=null" mixedDerivation.term.expand = .error error ∧
      error.code = .unexpectedToken := by
  have hnested : Term.parse .initial "a[b OR c[d AND e]].f=null" = .ok nestedDerivation.term :=
    Grammar.Derivation.parse_eq_ok (by decide) (by decide) (by decide)
  have hmixed : Term.parse .initial "a[b=true OR c].d=null" = .ok mixedDerivation.term :=
    Grammar.Derivation.parse_eq_ok (by decide) (by decide) (by decide)
  refine ⟨hnested, ((expand_iff_walks hnested).1 _).mpr rfl, hmixed, ?_⟩
  have hoverrun : ∃ walk ∈ mixedDerivation.term.walks.leaves, walk.Overrun := by
    refine ⟨_, List.mem_cons_self, [.name "a", .name "b"], _, .name "d", _, rfl⟩
  cases hexpand : report "a[b=true OR c].d=null" mixedDerivation.term.expand with
  | ok tree => cases hexpand
  | error error => exact ⟨error, rfl, ((expand_iff_walks hmixed).2.2 error hexpand).1 hoverrun⟩

end Term

end RequestQuery
