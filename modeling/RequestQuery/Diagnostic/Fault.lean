import RequestQuery.Diagnostic.Error

/-!
# Faults in an expression

A fault is a cause and the span it concerns. The wording, the code and the class of every cause are
given here, and nowhere else.
-/

namespace RequestQuery

/-- Why a number cannot be kept as written. -/
inductive NumberFault where
  | outOfRange (text : String)
  | inexact (text : String)
  deriving DecidableEq, Repr

namespace NumberFault

def text : NumberFault → String
  | .outOfRange text => text
  | .inexact text => text

def message : NumberFault → String
  | .outOfRange text => "number `" ++ text ++ "` is out of range"
  | .inexact text =>
      "number `" ++ text ++ "` has more digits than can be kept without rounding"

end NumberFault

/-- What is wrong with an expression. -/
inductive Cause where
  | emptyExpression (kind : String)
  | unexpected (found : Option Char) (expected : List String)
  | number (fault : NumberFault)
  | nestedTooDeep (limit : Nat)
  | pathTooLong (limit : Nat)
  | missingOperator (path : List String)
  | alreadyCompared (path : List String) (token : String)
  | duplicateParameter (name : String)
  | unknownOperator (token : String)
  | rangeOperator (token : String)
  | conflict (parameter : String) (path : List String)
  | emptyGroup
  | reservedParameter (name : String)
  deriving DecidableEq, Repr

def pathText (path : List String) : String := String.intercalate "." path

namespace Cause

def code : Cause → ErrorCode
  | .emptyExpression _ => .emptyExpression
  | .unexpected (some _) _ => .unexpectedToken
  | .unexpected none _ => .unexpectedEnd
  | .number _ => .numberOutOfRange
  | .nestedTooDeep _ => .nestingTooDeep
  | .pathTooLong _ => .nestingTooDeep
  | .missingOperator _ => .missingOperator
  | .alreadyCompared _ _ => .unexpectedToken
  | .duplicateParameter _ => .duplicateParameter
  | .unknownOperator _ => .unknownOperator
  | .rangeOperator _ => .invalidRangeOperator
  | .conflict _ _ => .mergeConflict
  | .emptyGroup => .emptyGroup
  | .reservedParameter _ => .reservedParameter

/-- Whether the text matches its grammar all the same. -/
def isSemantic : Cause → Bool
  | .unknownOperator _ => true
  | .rangeOperator _ => true
  | .conflict _ _ => true
  | .emptyGroup => true
  | .reservedParameter _ => true
  | _ => false

/-- What was found in place of the texts expected. -/
def unexpectedMessage (found : Option Char) (expected : List String) : String :=
  let start := match found with
    | some c => "unexpected `" ++ String.singleton c ++ "`"
    | none => "unexpected end of input"
  match expected.eraseDups with
  | [] => start
  | texts => start ++ ", expected " ++ String.intercalate " or " texts

def message : Cause → String
  | .emptyExpression kind => kind ++ " expression is empty"
  | .unexpected found expected => unexpectedMessage found expected
  | .number fault => fault.message
  | .nestedTooDeep limit => "expression is nested more than " ++ toString limit ++ " levels deep"
  | .pathTooLong limit => "select path is nested more than " ++ toString limit ++ " levels deep"
  | .missingOperator path => "missing comparison operator after `" ++ pathText path ++ "`"
  | .alreadyCompared path token => "`" ++ pathText path ++ "` already has a comparison (`" ++
      token ++ "`), nothing may follow it"
  | .duplicateParameter name => "parameter `" ++ name ++ "` is given more than once"
  | .unknownOperator token => "unknown operator `" ++ token ++ "`"
  | .rangeOperator token => "range values cannot be used with `" ++ token ++ "`"
  | .conflict parameter path => "cannot merge conflicting option `" ++ parameter ++ "` of `" ++
      pathText path ++ "`"
  | .emptyGroup => "child group cannot be empty"
  | .reservedParameter name => "`" ++ name ++ "` cannot be used as a parameter"

end Cause

/-- What is wrong with an expression, and with which part of it. -/
structure Fault where
  cause : Cause
  span : Span
  deriving DecidableEq, Repr

def Fault.toError (fault : Fault) (source : String) : QueryError :=
  if fault.cause.isSemantic then
    .semanticAt fault.cause.code fault.cause.message source fault.span
  else .syntaxAt fault.cause.code fault.cause.message source fault.span

theorem Fault.code_toError (fault : Fault) (source : String) :
    (fault.toError source).code = fault.cause.code := by
  unfold Fault.toError
  split <;> rfl

/-- Report the fault of a reading of `source`. -/
def report {α : Type} (source : String) : Except Fault α → Except QueryError α
  | .ok value => .ok value
  | .error fault => .error (fault.toError source)

@[simp] theorem report_eq_ok {α : Type} {source : String} {outcome : Except Fault α} {value : α} :
    report source outcome = .ok value ↔ outcome = .ok value := by
  cases outcome <;> simp [report]

end RequestQuery
