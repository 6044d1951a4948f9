import RequestQuery.Json.Basic
import RequestQuery.Number.DecimalText

/-!
# Literals and values

A literal is a scalar on the right of a comparison. A value is one literal, a set of them, or a
range. Both have a text that is read back as the same value, and a wire form, which is plain JSON.
-/

namespace RequestQuery

/-- A scalar on the right of a comparison. -/
inductive Literal where
  | null
  | boolean (b : Bool)
  /-- A whole number of 64 bits. -/
  | integer (n : Int64)
  /-- A number with a point, or a whole number that needs more than 64 bits. -/
  | decimal (d : Decimal)
  /-- A quoted text, without its quotes and escapes. -/
  | text (s : String)
  deriving Repr, DecidableEq

namespace Literal

/-- Equality of literals; decimals are compared as numbers. -/
def same : Literal → Literal → Bool
  | .null, .null => true
  | .boolean a, .boolean b => a == b
  | .integer a, .integer b => a == b
  | .decimal a, .decimal b => a.sameNumber b
  | .text a, .text b => a == b
  | _, _ => false

instance : BEq Literal := ⟨same⟩

def isNull : Literal → Bool
  | .null => true
  | _ => false

def asText? : Literal → Option String
  | .text s => some s
  | _ => none

def asInteger? : Literal → Option Int64
  | .integer n => some n
  | _ => none

def kind : Literal → String
  | .null => "null"
  | .boolean _ => "boolean"
  | .integer _ => "integer"
  | .decimal _ => "float"
  | .text _ => "string"

/-- A character of a quoted text: quotes and backslashes get a backslash. -/
def escapeChar (c : Char) : List Char := if c = '"' ∨ c = '\\' then ['\\', c] else [c]

def integerChars (n : Int) : List Char :=
  (if n < 0 then ['-'] else []) ++ Nat.toDigits 10 n.natAbs

def chars : Literal → List Char
  | .null => ['n', 'u', 'l', 'l']
  | .boolean true => ['t', 'r', 'u', 'e']
  | .boolean false => ['f', 'a', 'l', 's', 'e']
  | .integer n => integerChars n.toInt
  | .decimal d => d.chars
  | .text s => '"' :: s.toList.flatMap escapeChar ++ ['"']

def display (literal : Literal) : String := String.ofList literal.chars

def toJson : Literal → Json
  | .null => .null
  | .boolean b => .bool b
  | .integer n => .int n.toInt
  | .decimal d => .number (.float d.toBinary64)
  | .text s => .string s

/-- The integer literal of a number that fits 64 bits. -/
def ofInt? (n : Int) : Option Literal :=
  if Int64.minValue.toInt ≤ n ∧ n ≤ Int64.maxValue.toInt then some (.integer (Int64.ofInt n))
  else none

/-- The literal of a plain JSON document. Numbers that are no integers of 64 bits are decimals, and
so is a text that writes a decimal. Arrays and objects are none. -/
def ofJson? : Json → Option Literal
  | .null => some .null
  | .bool b => some (.boolean b)
  | .number (.integer n) =>
      match ofInt? n with
      | some literal => some literal
      | none => (Decimal.ofParts? (n < 0) n.natAbs 0).map .decimal
  | .number (.float x) => (Decimal.readPlain? (FloatLayout.plain.chars x)).map .decimal
  | .string s =>
      match Decimal.read? s.toList with
      | some d => some (.decimal d)
      | none => some (.text s)
  | .array _ => none
  | .object _ => none

end Literal

/-- The right side of a comparison. -/
inductive Value where
  /-- `id=1` -/
  | single (literal : Literal)
  /-- `id=1,2,3` -/
  | set (literals : List Literal)
  /-- `price=10..20` -/
  | range (first last : Literal)
  deriving Repr, DecidableEq

namespace Value

def same : Value → Value → Bool
  | .single a, .single b => a == b
  | .set a, .set b => a == b
  | .range a b, .range c d => a == c && b == d
  | _, _ => false

instance : BEq Value := ⟨same⟩

def isRange : Value → Bool
  | .range _ _ => true
  | _ => false

def asLiteral? : Value → Option Literal
  | .single literal => some literal
  | _ => none

def chars : Value → List Char
  | .single literal => literal.chars
  | .set literals => List.intercalate [','] (literals.map Literal.chars)
  | .range first last => first.chars ++ ['.', '.'] ++ last.chars

def display (value : Value) : String := String.ofList value.chars

/-- A scalar, or an array of the literals of a set or range. -/
def toJson : Value → Json
  | .single literal => literal.toJson
  | .set literals => .array (literals.map Literal.toJson)
  | .range first last => .array [first.toJson, last.toJson]

end Value

end RequestQuery
