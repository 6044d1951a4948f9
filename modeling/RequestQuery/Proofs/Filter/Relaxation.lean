import RequestQuery.Proofs.Filter.Composition
import RequestQuery.Proofs.Filter.Faults
import RequestQuery.Proofs.Filter.Marks

/-!
# Filters under settings that allow more

A table is asked for the tokens of a text and for nothing else. So a text is read under any settings
that bind its tokens as before and let brackets nest as deep, and it is read as before. A new token
makes a difference only to texts with a comparison that uses it.
-/

namespace RequestQuery

namespace FilterSettings

/-- All bindings are kept, and brackets may nest as deep at least. -/
structure Relaxes (settings settings' : FilterSettings) : Prop where
  bindings : ∀ token operator, settings.operators.find? token = some operator →
    settings'.operators.find? token = some operator
  depth : settings.maxDepth ≤ settings'.maxDepth

theorem bind_eq_ok {settings settings' : FilterSettings} {token : String} {operator : Operator}
    (h : settings.bind token operator = .ok settings') :
    settings'.maxDepth = settings.maxDepth ∧
      ∀ other, settings'.operators.find? other =
        if other = token then some operator else settings.operators.find? other := by
  unfold bind at h
  split at h
  next operators hbind =>
    cases h
    obtain ⟨-, -, -, rfl⟩ := OperatorTable.bind_eq_ok_iff.mp hbind
    exact ⟨rfl, fun other => Table.find?_put _ _ _ _⟩
  next => cases h

theorem relaxes_of_bindAll {bindings : List (String × Operator)} {settings : FilterSettings}
    {operators : OperatorTable} (h : settings.operators.bindAll bindings = .ok operators)
    {depth : Nat} (hdepth : settings.maxDepth ≤ depth) : settings.Relaxes ⟨operators, depth⟩ := by
  refine ⟨?_, hdepth⟩
  generalize settings.operators = table at h ⊢
  induction bindings generalizing table with
  | nil =>
      cases h
      exact fun _ _ hbound => hbound
  | cons binding rest ih =>
      intro other bound hbound
      simp only [OperatorTable.bindAll] at h
      split at h
      next next hnext =>
        obtain ⟨-, -, hnew, rfl⟩ := OperatorTable.bind_eq_ok_iff.mp hnext
        apply ih _ h
        have hother : other ≠ binding.1 := by
          rintro rfl
          rw [hnew] at hbound
          cases hbound
        rw [Table.find?_put, if_neg hother, hbound]
      next => cases h

end FilterSettings

theorem OperatorTable.resolve_of_find? {operators operators' : OperatorTable} {raw : RawComparison}
    (h : operators'.find? raw.token.value = operators.find? raw.token.value) :
    operators'.resolve raw = operators.resolve raw := by
  simp only [resolve, h]

namespace Filter

open Grammar

variable {settings settings' : FilterSettings} {source : String} {filter : Filter}

/-- A text is read alike under settings that bind the tokens in it alike. -/
private theorem parse_of_agrees {d : Derivation} (hd : d.Derives settings.operators source)
    (hnumber : d.Representable) (hdepth : d.depth ≤ settings'.maxDepth)
    (hmeans : d.term.Means settings.operators filter.alternatives)
    (hagree : ∀ e, Mark.ending e ∈ d.term.marks →
      settings'.operators.find? e.1.value = settings.operators.find? e.1.value) :
    parse source settings' = .ok filter := by
  have hbinds : Binds settings'.operators d.term.marks := by
    intro e he
    obtain ⟨hbound, -⟩ := hd.spelled_marks hnumber _ he
    rwa [Table.has, hagree e he]
  apply parse_eq_ok_iff.mpr ⟨d, hd.of_binds hbinds, hnumber, hdepth, ?_⟩
  obtain ⟨tree, resolved, hexpand, hresolved, halternatives⟩ := hmeans
  refine ⟨tree, resolved, hexpand, ?_, halternatives⟩
  rw [← hresolved]
  apply Formula.map_congr
  intro raw hraw
  obtain ⟨-, -, hending⟩ := Term.marks_of_mem_leaves hexpand hraw
  exact OperatorTable.resolve_of_find? (hagree _ hending)

theorem parse_mono (h : settings.Relaxes settings') (hparse : parse source settings = .ok filter) :
    parse source settings' = .ok filter := by
  obtain ⟨d, hd, hnumber, hdepth, hmeans⟩ := parse_eq_ok_iff.mp hparse
  refine parse_of_agrees hd hnumber (Nat.le_trans hdepth h.depth) hmeans fun e he => ?_
  obtain ⟨hbound, -⟩ := hd.spelled_marks hnumber _ he
  obtain ⟨operator, hoperator⟩ := Option.isSome_iff_exists.mp hbound
  rw [hoperator, h.bindings _ _ hoperator]

/-- A text that is read only since a token is bound has a comparison with this token. -/
theorem exists_comparison_of_bind {token : String} {operator : Operator}
    (hbind : settings.bind token operator = .ok settings')
    (hparse : parse source settings' = .ok filter)
    (hnot : ∀ filter', parse source settings ≠ .ok filter') :
    ∃ tree, parseTree source settings' = .ok tree ∧
      ∃ raw ∈ tree.leaves, raw.token.value = token ∧
        Slices source.toList raw.token.span token.toList := by
  obtain ⟨hdepth', hfind⟩ := FilterSettings.bind_eq_ok hbind
  obtain ⟨d, hd, hnumber, hdepth, hmeans⟩ := parse_eq_ok_iff.mp hparse
  have ⟨tree, _, hexpand, _⟩ := hmeans
  have htree : parseTree source settings' = .ok tree :=
    parseTree_eq_ok_iff.mpr ⟨hd.check_iff.mpr hdepth, d, hd, hnumber, hexpand⟩
  refine ⟨tree, htree, ?_⟩
  have hused : ∃ raw ∈ tree.leaves, raw.token.value = token := by
    by_contra hunused
    apply hnot filter
    refine parse_of_agrees hd hnumber (hdepth' ▸ hdepth) hmeans fun e he => ?_
    obtain ⟨raw, hraw, rfl⟩ := Term.exists_leaf_of_ending hexpand d.proper he
    have hother : raw.token.value ≠ token := fun heq => hunused ⟨raw, hraw, heq⟩
    rw [hfind, if_neg hother]
  obtain ⟨raw, hraw, htoken⟩ := hused
  have hplaced := treeFault_placed settings' source
  rw [report_eq_ok.mp htree] at hplaced
  exact ⟨raw, hraw, htoken, htoken ▸ (hplaced raw hraw).1⟩

end Filter

end RequestQuery
