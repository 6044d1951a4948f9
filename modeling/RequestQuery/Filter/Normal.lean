import RequestQuery.Filter.Expansion
import RequestQuery.Reading.Nesting

/-!
# Normalized filters

A normalized filter is a list of alternatives, each a list of comparisons that must all hold. Tokens are
looked up in the operator table, and a range turns `=` and `!=` into `between` and `notBetween`.
-/

namespace RequestQuery

structure Comparison where
  path : List String
  operator : Operator
  value : Value
  deriving Repr, DecidableEq

namespace Comparison

/-- Equality of comparisons; decimals are compared as numbers. -/
def same (a b : Comparison) : Bool :=
  a.path == b.path && a.operator == b.operator && a.value == b.value

instance : BEq Comparison := ⟨same⟩

def display (c : Comparison) : String :=
  pathText c.path ++ " " ++ c.operator.name ++ " " ++ c.value.display

def toJson (c : Comparison) : Json :=
  .object [("attribute", .strings c.path), ("operator", .string c.operator.name),
    ("value", c.value.toJson)]

end Comparison

/-- Alternatives, each a list of comparisons that must all hold. -/
structure Filter where
  alternatives : List (List Comparison)
  deriving Repr, DecidableEq

namespace Filter

def same (a b : Filter) : Bool := a.alternatives == b.alternatives

instance : BEq Filter := ⟨same⟩

def comparisons (f : Filter) : List Comparison := f.alternatives.flatten

def display (f : Filter) : String :=
  String.intercalate " OR "
    (f.alternatives.map fun part => String.intercalate " AND " (part.map Comparison.display))

def toJson (f : Filter) : Json :=
  .array (f.alternatives.map fun part => .array (part.map Comparison.toJson))

end Filter

/-- The operator of a token for a value. Only `=` and `!=` take ranges. -/
def OperatorTable.resolve (operators : OperatorTable) (raw : RawComparison) :
    Except Fault Comparison :=
  let token := raw.token.value
  match operators.find? token with
  | none => .error ⟨.unknownOperator token, raw.token.span⟩
  | some operator =>
      if raw.value.isRange then
        match (if token = "=" ∨ token = "!=" then operator.forRange? else none) with
        | some operator => .ok ⟨raw.path, operator, raw.value⟩
        | none => .error ⟨.rangeOperator token, raw.token.span⟩
      else .ok ⟨raw.path, operator, raw.value⟩

namespace Filter

/-- Look up every token from left to right, then spread the formula into alternatives. -/
def normalizeFault (operators : OperatorTable) (tree : Formula RawComparison) :
    Except Fault Filter :=
  match tree.traverse operators.resolve with
  | .ok formula => .ok ⟨formula.alternatives⟩
  | .error fault => .error fault

def normalize (tree : Formula RawComparison) (settings : FilterSettings) (source : String) :
    Except QueryError Filter :=
  report source (normalizeFault settings.operators tree)

/-- The comparisons of a filter text, brackets expanded, or what is wrong with it. -/
def treeFault (settings : FilterSettings) (source : String) :
    Except Fault (Formula RawComparison) :=
  if source.toList.all isBlank then .error ⟨.emptyExpression "filter", .point 0⟩
  else
    match Nesting.check source settings.maxDepth with
    | .error fault => .error fault
    | .ok () =>
        match Term.parse settings.operators source with
        | .error fault => .error fault
        | .ok term => term.expand

def parseTree (source : String) (settings : FilterSettings) :
    Except QueryError (Formula RawComparison) :=
  report source (treeFault settings source)

def parse (source : String) (settings : FilterSettings) : Except QueryError Filter :=
  match parseTree source settings with
  | .ok tree => normalize tree settings source
  | .error error => .error error

end Filter

end RequestQuery
