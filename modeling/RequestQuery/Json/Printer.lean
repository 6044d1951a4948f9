import RequestQuery.Json.Number

/-!
# Writing JSON

Compactly, or with one item a line and an indent of two blanks a level.
-/

namespace RequestQuery

namespace Json

def escapeChar (c : Char) : List Char :=
  match c with
  | '"' => ['\\', '"']
  | '\\' => ['\\', '\\']
  | '\x08' => ['\\', 'b']
  | '\x0c' => ['\\', 'f']
  | '\n' => ['\\', 'n']
  | '\r' => ['\\', 'r']
  | '\t' => ['\\', 't']
  | c =>
      if c.toNat < 0x20 then
        ['\\', 'u', '0', '0', Nat.digitChar (c.toNat / 16), Nat.digitChar (c.toNat % 16)]
      else [c]

def quote (s : String) : String := "\"" ++ String.ofList (s.toList.flatMap escapeChar) ++ "\""

mutual
/-- The document on one line without blanks. -/
def compact : Json → String
  | .null => "null"
  | .bool b => if b then "true" else "false"
  | .number n => n.text
  | .string s => quote s
  | .array items => "[" ++ String.intercalate "," (compactItems items) ++ "]"
  | .object members => "\x7b" ++ String.intercalate "," (compactMembers members) ++ "\x7d"

def compactItems : List Json → List String
  | [] => []
  | item :: rest => item.compact :: compactItems rest

def compactMembers : List (String × Json) → List String
  | [] => []
  | (key, value) :: rest => (quote key ++ ":" ++ value.compact) :: compactMembers rest
end

def newline (level : Nat) : String := "\n" ++ String.ofList (List.replicate (2 * level) ' ')

mutual
/-- The document with one item a line, at an indent. -/
def prettyAt (level : Nat) : Json → String
  | .array [] => "[]"
  | .array items => "[" ++ String.intercalate "," (prettyItems (level + 1) items) ++
      newline level ++ "]"
  | .object [] => "\x7b\x7d"
  | .object members => "\x7b" ++ String.intercalate "," (prettyMembers (level + 1) members) ++
      newline level ++ "\x7d"
  | .null => "null"
  | .bool b => if b then "true" else "false"
  | .number n => n.text
  | .string s => quote s

/-- The items of an array, each behind a new line. -/
def prettyItems (level : Nat) : List Json → List String
  | [] => []
  | item :: rest => (newline level ++ item.prettyAt level) :: prettyItems level rest

/-- The members of an object, each behind a new line. -/
def prettyMembers (level : Nat) : List (String × Json) → List String
  | [] => []
  | (key, value) :: rest =>
      (newline level ++ quote key ++ ": " ++ value.prettyAt level) :: prettyMembers level rest
end

def pretty (document : Json) : String := document.prettyAt 0

/-- The document in one of the two forms. -/
def render (document : Json) (spread : Bool) : String :=
  if spread then document.pretty else document.compact

end Json

end RequestQuery
