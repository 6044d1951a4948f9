import RequestQuery.Filter.Settings

/-!
# Settings that can be built

Settings are built from the basic ones by binding tokens and changing the depth. Every table built so
keeps the six basic bindings, has tokens of operator characters only, and binds none of them to an
operator that arises from ranges.
-/

namespace RequestQuery

namespace OperatorTable

/-- What every table of built settings satisfies. -/
structure Lawful (table : OperatorTable) : Prop where
  nodup : table.keys.Nodup
  tokens : ∀ token ∈ table.keys, token.toList ≠ [] ∧ token.toList.all isOperatorChar = true
  written : ∀ token operator, table.find? token = some operator → operator.isRangeOnly = false
  basic : ∀ token operator, OperatorTable.initial.find? token = some operator →
    table.find? token = some operator

theorem lawful_initial : OperatorTable.initial.Lawful where
  nodup := by decide
  tokens := by decide
  written := by
    intro token operator h
    simp only [OperatorTable.initial, Table.find?] at h
    repeat' split at h
    all_goals cases h <;> rfl
  basic := fun _ _ h => h

/-- A binding is accepted for a new token of operator characters and an operator that is written. -/
theorem bind_eq_ok_iff {table table' : OperatorTable} {token : String} {operator : Operator} :
    table.bind token operator = .ok table' ↔
      (token.toList ≠ [] ∧ token.toList.all isOperatorChar = true) ∧ operator.isRangeOnly = false ∧
        table.find? token = none ∧ table.put token operator = table' := by
  unfold OperatorTable.bind
  split
  next h =>
    have hbad : ¬(token.toList ≠ [] ∧ token.toList.all isOperatorChar = true) := by
      rintro ⟨hne, hall⟩
      exact h.elim hne fun hall' => by simp [hall] at hall'
    simp only [reduceCtorEq, false_iff]
    exact fun hok => hbad hok.1
  next h =>
    have hgood : token.toList ≠ [] ∧ token.toList.all isOperatorChar = true := by
      simpa only [not_or, Bool.not_eq_false] using h
    split
    next hrange => simp [hrange]
    next hrange =>
      split
      next bound hbound => simp [hbound]
      next hnone => simp [hgood, hrange, hnone]

theorem Lawful.bind {table table' : OperatorTable} {token : String} {operator : Operator}
    (h : table.Lawful) (hbind : table.bind token operator = .ok table') : table'.Lawful := by
  obtain ⟨htoken, hwritten, hnew, rfl⟩ := bind_eq_ok_iff.mp hbind
  have hkeys : (table.put token operator).keys = table.keys ++ [token] :=
    Table.keys_put_of_not_mem operator (Table.find?_eq_none_iff.mp hnew)
  refine ⟨Table.nodup_keys_put token operator h.nodup, ?_, ?_, ?_⟩
  · intro other hother
    rw [hkeys, List.mem_append, List.mem_singleton] at hother
    rcases hother with hother | rfl
    · exact h.tokens other hother
    · exact htoken
  · intro other bound hbound
    rw [Table.find?_put] at hbound
    split at hbound
    · cases hbound
      exact hwritten
    · exact h.written other bound hbound
  · intro other bound hbound
    have hother := h.basic other bound hbound
    have hne : other ≠ token := by
      intro heq
      rw [heq, hnew] at hother
      cases hother
    rw [Table.find?_put, if_neg hne, hother]

end OperatorTable

namespace FilterSettings

/-- The settings that can be built from the basic ones. -/
inductive Reachable : FilterSettings → Prop where
  | initial : Reachable .initial
  | bind {settings settings' : FilterSettings} {token : String} {operator : Operator}
      (before : Reachable settings) (step : settings.bind token operator = .ok settings') :
      Reachable settings'
  | withMaxDepth {settings : FilterSettings} (before : Reachable settings) (depth : Nat) :
      Reachable (settings.withMaxDepth depth)

theorem Reachable.lawful {settings : FilterSettings} (h : settings.Reachable) :
    settings.operators.Lawful := by
  induction h with
  | initial => exact OperatorTable.lawful_initial
  | withMaxDepth _ depth ih => exact ih
  | bind _ step ih =>
      unfold FilterSettings.bind at step
      split at step
      next operators hoperators =>
        cases step
        exact ih.bind hoperators
      next => cases step

/-- Settings read from a list of bindings can be built. -/
theorem reachable_of_extended {bindings : List (String × Operator)} {depth : Option Nat}
    {settings : FilterSettings} (h : extended bindings depth = .ok settings) :
    settings.Reachable := by
  have hall : ∀ (bindings : List (String × Operator)) (start : FilterSettings)
      (operators : OperatorTable), start.Reachable →
      start.operators.bindAll bindings = .ok operators →
        Reachable { start with operators := operators } := by
    intro bindings
    induction bindings with
    | nil =>
        intro start operators hstart hbind
        cases hbind
        exact hstart
    | cons binding rest ih =>
        intro start operators hstart hbind
        obtain ⟨token, operator⟩ := binding
        simp only [OperatorTable.bindAll] at hbind
        split at hbind
        next table htable =>
          have hstep : start.bind token operator = .ok { start with operators := table } := by
            simp only [FilterSettings.bind, htable]
          exact ih { start with operators := table } operators (.bind hstart hstep) hbind
        next => cases hbind
  unfold extended at h
  split at h
  next operators hoperators =>
    cases h
    exact (hall bindings .initial operators .initial hoperators).withMaxDepth _
  next => cases h

end FilterSettings

end RequestQuery
