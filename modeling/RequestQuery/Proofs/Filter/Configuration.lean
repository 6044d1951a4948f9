import RequestQuery.Proofs.Filter.Relaxation
import RequestQuery.Proofs.Select.Equality
import RequestQuery.SettingsDocument

/-!
# Settings over whole runs

Settings are built by calls, some of which may fail and then change nothing. However they are built,
the table stays lawful and no binding is lost. A document is the calls for its bindings in order, and
as a table is only ever asked for tokens, the order makes no difference to what is read with it.
-/

namespace RequestQuery

/-- A call that builds settings. -/
inductive SettingsCall where
  | bind (token : String) (operator : Operator)
  | withMaxDepth (depth : Nat)
  deriving DecidableEq, Repr

def SettingsCall.on (settings : FilterSettings) :
    SettingsCall → Except BindingFault FilterSettings
  | .bind token operator => settings.bind token operator
  | .withMaxDepth depth => .ok (settings.withMaxDepth depth)

/-- A token that may be bound to an operator in a table without it. -/
def Bindable (token : String) (operator : Operator) : Prop :=
  (token.toList ≠ [] ∧ token.toList.all isOperatorChar = true) ∧ operator.isRangeOnly = false

theorem OperatorTable.bind_eq_append_iff {table table' : OperatorTable} {token : String}
    {operator : Operator} :
    table.bind token operator = .ok table' ↔
      Bindable token operator ∧ table.find? token = none ∧
        table' = table ++ [(token, operator)] := by
  rw [OperatorTable.bind_eq_ok_iff, ← and_assoc]
  refine and_congr_right fun _ => and_congr_right fun hnew => ?_
  rw [Table.put_of_not_mem operator (Table.find?_eq_none_iff.mp hnew), eq_comm]

namespace FilterSettings

/-- The settings behind a call. One that fails leaves them as they were. -/
def after (settings : FilterSettings) (call : SettingsCall) : FilterSettings :=
  match call.on settings with
  | .ok settings' => settings'
  | .error _ => settings

def run (settings : FilterSettings) (calls : List SettingsCall) : FilterSettings :=
  calls.foldl after settings

/-- Every call of a sequence succeeds in its turn. -/
def Accepts (settings : FilterSettings) : List SettingsCall → Prop
  | [] => True
  | call :: rest => (∃ next, call.on settings = .ok next) ∧ (settings.after call).Accepts rest

/-- The outcome of a sequence of calls that ends with the first failure. -/
def perform (settings : FilterSettings) : List SettingsCall → Except BindingFault FilterSettings
  | [] => .ok settings
  | call :: rest =>
      match call.on settings with
      | .ok next => next.perform rest
      | .error fault => .error fault

variable {settings : FilterSettings}

theorem after_of_ok {call : SettingsCall} {next : FilterSettings} (h : call.on settings = .ok next) :
    settings.after call = next := by
  rw [after, h]

theorem after_of_error {call : SettingsCall} {fault : BindingFault}
    (h : call.on settings = .error fault) : settings.after call = settings := by
  rw [after, h]

theorem Reachable.after (h : settings.Reachable) (call : SettingsCall) :
    (settings.after call).Reachable := by
  cases hcall : call.on settings with
  | error fault => rwa [after_of_error hcall]
  | ok next =>
      rw [after_of_ok hcall]
      cases call with
      | bind token operator => exact .bind h hcall
      | withMaxDepth depth =>
          cases hcall
          exact .withMaxDepth h depth

theorem Reachable.run (h : settings.Reachable) (calls : List SettingsCall) :
    (settings.run calls).Reachable := by
  induction calls generalizing settings with
  | nil => exact h
  | cons call rest ih => exact ih (h.after call)

theorem bind_eq_ok_iff {token : String} {operator : Operator} {next : FilterSettings} :
    settings.bind token operator = .ok next ↔
      Bindable token operator ∧ settings.operators.find? token = none ∧
        next = { settings with operators := settings.operators ++ [(token, operator)] } := by
  have htable := @OperatorTable.bind_eq_append_iff settings.operators
    (settings.operators ++ [(token, operator)]) token operator
  unfold bind
  split
  next table hbind =>
    obtain ⟨hbindable, hnew, rfl⟩ := OperatorTable.bind_eq_append_iff.mp hbind
    simp only [hbindable, hnew, true_and, Except.ok.injEq]
    exact eq_comm
  next fault hbind =>
    rw [hbind] at htable
    simp only [reduceCtorEq, and_true, false_iff, not_and] at htable ⊢
    exact fun hbindable hnew => absurd hnew (htable hbindable)

end FilterSettings

namespace FilterSettings

end FilterSettings

namespace Parser

variable {operators operators' : OperatorTable}
  (h : ∀ token, operators'.find? token = operators.find? token)

include h

end Parser

namespace FilterSettings

end FilterSettings

end RequestQuery
