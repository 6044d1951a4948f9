import RequestQuery.Number.Shortest
import RequestQuery.Table

/-!
# JSON documents

Objects keep their members in the order of the text, so a document can hold a key twice until
`Json.merged` gives each key its first place and its last value.
-/

namespace RequestQuery

/-- A number is an integer or a binary fraction. -/
inductive JsonNumber where
  | integer (n : Int)
  | float (x : Binary64)
  deriving DecidableEq, Repr

inductive Json where
  | null
  | bool (b : Bool)
  | number (n : JsonNumber)
  | string (s : String)
  | array (items : List Json)
  | object (members : List (String × Json))
  deriving Repr, Inhabited

namespace Json

def int (n : Int) : Json := .number (.integer n)

def nat (n : Nat) : Json := .int (Int.ofNat n)

def strings (texts : List String) : Json := .array (texts.map .string)

def orNull {α : Type} (encode : α → Json) : Option α → Json
  | some a => encode a
  | none => .null

/-- The member of an object with a key. -/
def get? : Json → String → Option Json
  | .object members, key => Table.find? members key
  | _, _ => none

def asString? : Json → Option String
  | .string s => some s
  | _ => none

mutual
/-- Every object with each key once, in its first place and with its last value. -/
def merged : Json → Json
  | .array items => .array (mergedItems items)
  | .object members => .object (mergedMembers members [])
  | other => other

def mergedItems : List Json → List Json
  | [] => []
  | item :: rest => item.merged :: mergedItems rest

/-- Put merged members into a table. -/
def mergedMembers : List (String × Json) → Table Json → Table Json
  | [], table => table
  | (key, value) :: rest, table => mergedMembers rest (table.put key value.merged)
end

end Json

end RequestQuery
