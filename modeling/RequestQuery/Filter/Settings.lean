import RequestQuery.Filter.Operator

/-!
# Settings

What the grammars of filters and selects can be told: the operator table, how deep brackets may nest,
and whether placeholders in braces are names.
-/

namespace RequestQuery

/-- How deep brackets nest unless told otherwise. -/
def defaultMaxDepth : Nat := 64

structure FilterSettings where
  operators : OperatorTable
  maxDepth : Nat
  deriving DecidableEq, Repr

namespace FilterSettings

/-- The six basic operators and the default depth. -/
def initial : FilterSettings := ⟨.initial, defaultMaxDepth⟩

def bind (settings : FilterSettings) (token : String) (operator : Operator) :
    Except BindingFault FilterSettings :=
  match settings.operators.bind token operator with
  | .ok operators => .ok { settings with operators := operators }
  | .error fault => .error fault

def withMaxDepth (settings : FilterSettings) (depth : Nat) : FilterSettings :=
  { settings with maxDepth := depth }

/-- The basic settings with further tokens bound in order. -/
def extended (bindings : List (String × Operator)) (depth : Option Nat) :
    Except BindingFault FilterSettings :=
  match OperatorTable.initial.bindAll bindings with
  | .ok operators => .ok ⟨operators, depth.getD defaultMaxDepth⟩
  | .error fault => .error fault

end FilterSettings

structure SelectSettings where
  /-- Whether braces may stand in names at the top level. -/
  braces : Bool
  /-- The settings of filter parameters. -/
  filter : FilterSettings
  /-- How deep groups may nest, and how long a path may be. -/
  maxDepth : Nat
  deriving DecidableEq, Repr

namespace SelectSettings

/-- No braces, basic filters and the default depth. -/
def initial : SelectSettings := ⟨false, .initial, defaultMaxDepth⟩

/-- Change the depth of selects and of the filters in them. -/
def withAllDepths (settings : SelectSettings) (depth : Nat) : SelectSettings :=
  { settings with filter := settings.filter.withMaxDepth depth, maxDepth := depth }

end SelectSettings

end RequestQuery
