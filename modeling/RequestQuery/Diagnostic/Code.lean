/-!
# Error codes

Codes 1 to 99 are faults of syntax, 100 to 199 faults of meaning, 200 to 299 faults of a request.
-/

namespace RequestQuery

/-- The number of a kind of error. -/
structure ErrorCode where
  number : Nat
  deriving DecidableEq, Repr

namespace ErrorCode

def unexpectedToken : ErrorCode := ⟨1⟩
def unexpectedEnd : ErrorCode := ⟨2⟩
def emptyExpression : ErrorCode := ⟨3⟩
def duplicateParameter : ErrorCode := ⟨4⟩
def missingOperator : ErrorCode := ⟨5⟩
def nestingTooDeep : ErrorCode := ⟨6⟩
def numberOutOfRange : ErrorCode := ⟨7⟩
def mergeConflict : ErrorCode := ⟨100⟩
def invalidRangeOperator : ErrorCode := ⟨101⟩
def emptyGroup : ErrorCode := ⟨102⟩
def unknownOperator : ErrorCode := ⟨103⟩
def reservedParameter : ErrorCode := ⟨104⟩
def invalidConfiguration : ErrorCode := ⟨105⟩
def invalidRequest : ErrorCode := ⟨200⟩
def invalidType : ErrorCode := ⟨201⟩
def valueOutOfRange : ErrorCode := ⟨202⟩
def invalidOrder : ErrorCode := ⟨203⟩
def notImplemented : ErrorCode := ⟨204⟩

/-- What is known of a code apart from the single case. -/
structure Info where
  description : String
  help : Option String

/-- The description and the standing advice of a code. -/
def info (code : ErrorCode) : Info :=
  match code.number with
  | 1 => ⟨"Unexpected token", none⟩
  | 2 => ⟨"Unexpected end of input", none⟩
  | 3 => ⟨"Empty expression", none⟩
  | 4 => ⟨"Duplicate parameter", some "Each parameter may only be given once per attribute"⟩
  | 5 => ⟨"Missing comparison operator", none⟩
  | 6 => ⟨"Nesting too deep",
      some "Flatten the expression or raise the configured maximum depth"⟩
  | 7 => ⟨"Number out of range", some "Quote the number to compare it as a string"⟩
  | 100 => ⟨"Cannot merge conflicting options",
      some "Give the parameters of an attribute only once"⟩
  | 101 => ⟨"Invalid range operator", some "Ranges can only be compared with = or !="⟩
  | 102 => ⟨"Empty child group", none⟩
  | 103 => ⟨"Unknown operator", none⟩
  | 104 => ⟨"Reserved parameter name", none⟩
  | 105 => ⟨"Invalid configuration", none⟩
  | 200 => ⟨"Invalid request", none⟩
  | 201 => ⟨"Invalid type", none⟩
  | 202 => ⟨"Value out of range", none⟩
  | 203 => ⟨"Invalid order", none⟩
  | 204 => ⟨"Not implemented", none⟩
  | _ => ⟨"Unknown error", none⟩

def isSyntax (code : ErrorCode) : Bool := 1 ≤ code.number && code.number < 100

def isSemantic (code : ErrorCode) : Bool := 100 ≤ code.number && code.number < 200

def isRequest (code : ErrorCode) : Bool := 200 ≤ code.number && code.number < 300

/-- Written with at least four digits after the mark. -/
def text (code : ErrorCode) : String :=
  let digits := toString code.number
  "FQL" ++ String.ofList (List.replicate (4 - digits.length) '0') ++ digits

end ErrorCode

end RequestQuery
