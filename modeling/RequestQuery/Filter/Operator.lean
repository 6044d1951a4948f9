import RequestQuery.Diagnostic.Error
import RequestQuery.Table

/-!
# Operators and their tokens

A filter names its operators by tokens such as `!=`. The operator table maps tokens to operators; it
starts from six bindings and only grows. `between` and `notBetween` have no token: they are what `=`
and `!=` become when the value is a range.
-/

namespace RequestQuery

/-- The comparisons of a normalized filter. -/
inductive Operator where
  | equal
  | notEqual
  | less
  | lessOrEqual
  | greater
  | greaterOrEqual
  | between
  | notBetween
  | like
  deriving DecidableEq, Repr

namespace Operator

def name : Operator → String
  | .equal => "equal"
  | .notEqual => "notEqual"
  | .less => "less"
  | .lessOrEqual => "lessOrEqual"
  | .greater => "greater"
  | .greaterOrEqual => "greaterOrEqual"
  | .between => "between"
  | .notBetween => "notBetween"
  | .like => "like"

def all : List Operator :=
  [.equal, .notEqual, .less, .lessOrEqual, .greater, .greaterOrEqual, .between, .notBetween, .like]

def ofName? (name : String) : Option Operator := all.find? fun op => op.name == name

theorem ofName?_name (op : Operator) : ofName? op.name = some op := by
  cases op <;> decide

/-- Whether an operator arises from range values only. -/
def isRangeOnly : Operator → Bool
  | .between => true
  | .notBetween => true
  | _ => false

/-- What an operator becomes when the value is a range. -/
def forRange? : Operator → Option Operator
  | .equal => some .between
  | .notEqual => some .notBetween
  | _ => none

end Operator

/-- The characters tokens are made of. -/
def operatorChars : List Char := ['=', '!', '<', '>', '~', '*', '^', '$', '%', '@', '&', '|']

def isOperatorChar (c : Char) : Bool := operatorChars.contains c

/-- Bindings of tokens to operators, oldest first. -/
abbrev OperatorTable := Table Operator

/-- The six bindings every table starts from. -/
def OperatorTable.initial : OperatorTable :=
  [("=", .equal), ("!=", .notEqual), ("<", .less), ("<=", .lessOrEqual), (">", .greater),
    (">=", .greaterOrEqual)]

inductive BindingFault where
  | badToken (token : String)
  | derived (operator : Operator)
  | taken (token : String) (operator : Operator)
  deriving DecidableEq, Repr

namespace BindingFault

def message : BindingFault → String
  | .badToken token => "operator token `" ++ token ++ "` may only contain the characters " ++
      String.ofList operatorChars
  | .derived operator =>
      "`" ++ operator.name ++ "` cannot be bound to a token, it is derived from range values"
  | .taken token operator =>
      "operator token `" ++ token ++ "` is already bound to `" ++ operator.name ++ "`"

def toError (fault : BindingFault) : QueryError :=
  .validation .invalidConfiguration fault.message

end BindingFault

def OperatorTable.bind (table : OperatorTable) (token : String) (operator : Operator) :
    Except BindingFault OperatorTable :=
  if token.toList = [] ∨ token.toList.all isOperatorChar = false then .error (.badToken token)
  else if operator.isRangeOnly then .error (.derived operator)
  else
    match table.find? token with
    | some bound => .error (.taken token bound)
    | none => .ok (table.put token operator)

/-- Bind tokens in order; the first that cannot be bound ends it. -/
def OperatorTable.bindAll (table : OperatorTable) :
    List (String × Operator) → Except BindingFault OperatorTable
  | [] => .ok table
  | (token, operator) :: rest =>
      match table.bind token operator with
      | .ok table => OperatorTable.bindAll table rest
      | .error fault => .error fault

end RequestQuery
