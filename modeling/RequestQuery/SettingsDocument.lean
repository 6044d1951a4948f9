import RequestQuery.Filter.Settings
import RequestQuery.Json.Basic

/-!
# Settings given as documents

Filter settings are an object with `operators` and `maxDepth`, select settings one with
`enableBraces`, `filter` and `maxDepth`. Other members are refused, and so is a member given twice.
The same parts may also be given in this order as an array.
-/

namespace RequestQuery

inductive SettingsFault where
  | malformed
  | binding (fault : BindingFault)
  deriving DecidableEq, Repr

/-- An operator is given by its name, or by an object with that one member. -/
def Operator.ofJson? : Json → Option Operator
  | .string name => ofName? name
  | .object [(name, .null)] => ofName? name
  | _ => none

/-- A depth is a whole number that is not negative. -/
def depthOfJson? : Json → Option Nat
  | .number (.integer n) => if 0 ≤ n then some n.toNat else none
  | _ => none

/-- A depth, or null for none. -/
def optionalDepthOfJson? : Json → Option (Option Nat)
  | .null => some none
  | document => (depthOfJson? document).map some

def operatorsOfMembers? : List (String × Json) → Table Operator → Option (Table Operator)
  | [], table => some table
  | (token, document) :: rest, table =>
      match Operator.ofJson? document with
      | some operator => operatorsOfMembers? rest (table.put token operator)
      | none => none

/-- Tokens with the operators they are to be bound to. -/
def bindingsOfJson? : Json → Option (Table Operator)
  | .object members => operatorsOfMembers? members []
  | _ => none

namespace FilterSettings

structure Draft where
  operators : Option (Table Operator) := none
  maxDepth : Option (Option Nat) := none

def Draft.read? (draft : Draft) : List (String × Json) → Option Draft
  | [] => some draft
  | (key, document) :: rest =>
      if key = "operators" ∧ draft.operators.isNone then
        match bindingsOfJson? document with
        | some operators => Draft.read? { draft with operators := some operators } rest
        | none => none
      else if key = "maxDepth" ∧ draft.maxDepth.isNone then
        match optionalDepthOfJson? document with
        | some depth => Draft.read? { draft with maxDepth := some depth } rest
        | none => none
      else none

/-- The settings of a draft: its tokens are bound in order on top of the basic ones. -/
def Draft.finish (draft : Draft) : Except SettingsFault FilterSettings :=
  match extended (draft.operators.getD []) (draft.maxDepth.getD none) with
  | .ok settings => .ok settings
  | .error fault => .error (.binding fault)

def ofJson : Json → Except SettingsFault FilterSettings
  | .object members =>
      match Draft.read? {} members with
      | some draft => draft.finish
      | none => .error .malformed
  | .array [operators, depth] =>
      match Draft.read? {} [("operators", operators), ("maxDepth", depth)] with
      | some draft => draft.finish
      | none => .error .malformed
  | _ => .error .malformed

end FilterSettings

namespace SelectSettings

structure Draft where
  braces : Option Bool := none
  filter : Option FilterSettings := none
  maxDepth : Option Nat := none

/-- Read members in order; the first that is refused decides the outcome. -/
def Draft.read (draft : Draft) : List (String × Json) → Except SettingsFault Draft
  | [] => .ok draft
  | (key, document) :: rest =>
      if key = "enableBraces" ∧ draft.braces.isNone then
        match document with
        | .bool b => Draft.read { draft with braces := some b } rest
        | _ => .error .malformed
      else if key = "filter" ∧ draft.filter.isNone then
        match FilterSettings.ofJson document with
        | .ok filter => Draft.read { draft with filter := some filter } rest
        | .error fault => .error fault
      else if key = "maxDepth" ∧ draft.maxDepth.isNone then
        match depthOfJson? document with
        | some depth => Draft.read { draft with maxDepth := some depth } rest
        | none => .error .malformed
      else .error .malformed

/-- The settings of a draft; what is missing is as in the basic settings. -/
def Draft.finish (draft : Draft) : SelectSettings where
  braces := draft.braces.getD initial.braces
  filter := draft.filter.getD initial.filter
  maxDepth := draft.maxDepth.getD initial.maxDepth

/-- Settings from a document. An item of an array past the last part is refused. -/
def ofJson : Json → Except SettingsFault SelectSettings
  | .object members => (Draft.read {} members).map Draft.finish
  | .array items =>
      let keys := ["enableBraces", "filter", "maxDepth"] ++ items.map fun _ => ""
      (Draft.read {} (keys.zip items)).map Draft.finish
  | _ => .error .malformed

end SelectSettings

end RequestQuery
