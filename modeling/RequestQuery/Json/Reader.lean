import RequestQuery.Json.Number

/-!
# Reading JSON

Readers take the front of a list of characters and give back the rest. Arrays and objects nest at
most 127 deep.
-/

namespace RequestQuery

namespace Json

/-- A value read from the front of a text, and the rest. -/
abbrev Front (α : Type) := List Char → Option (α × List Char)

def skipBlanks (text : List Char) : List Char :=
  text.dropWhile fun c => c == ' ' || c == '\n' || c == '\t' || c == '\r'

def hexValue? (c : Char) : Option Nat :=
  if c.isDigit then some (c.toNat - '0'.toNat)
  else if 'a' ≤ c ∧ c ≤ 'f' then some (c.toNat - 'a'.toNat + 10)
  else if 'A' ≤ c ∧ c ≤ 'F' then some (c.toNat - 'A'.toNat + 10)
  else none

def hexUnit? (a b c d : Char) : Option Nat := do
  let a ← hexValue? a
  let b ← hexValue? b
  let c ← hexValue? c
  let d ← hexValue? d
  pure (((a * 16 + b) * 16 + c) * 16 + d)

/-- The character a single letter stands for behind a backslash. -/
def escapeLetter? : Char → Option Char
  | '"' => some '"'
  | '\\' => some '\\'
  | '/' => some '/'
  | 'b' => some '\x08'
  | 'f' => some '\x0c'
  | 'n' => some '\n'
  | 'r' => some '\r'
  | 't' => some '\t'
  | _ => none

/-- Whether a unit opens a pair that stands for one character. -/
def isHighUnit (n : Nat) : Bool := 0xD800 ≤ n && n ≤ 0xDBFF

/-- Whether a unit closes such a pair. -/
def isLowUnit (n : Nat) : Bool := 0xDC00 ≤ n && n ≤ 0xDFFF

def pairChar (high low : Nat) : Char :=
  Char.ofNat (0x10000 + (high - 0xD800) * 0x400 + (low - 0xDC00))

/-- The characters of a string behind its opening quote. Control characters and unpaired units are
refused. -/
def stringBody : Front (List Char)
  | [] => none
  | '"' :: rest => some ([], rest)
  | '\\' :: 'u' :: a :: b :: c :: d :: rest =>
      match hexUnit? a b c d with
      | none => none
      | some unit =>
          if isHighUnit unit then
            match rest with
            | '\\' :: 'u' :: e :: f :: g :: h :: rest =>
                match hexUnit? e f g h with
                | some low =>
                    if isLowUnit low then
                      (stringBody rest).map fun (cs, rest) => (pairChar unit low :: cs, rest)
                    else none
                | none => none
            | _ => none
          else if isLowUnit unit then none
          else (stringBody rest).map fun (cs, rest) => (Char.ofNat unit :: cs, rest)
  | '\\' :: c :: rest =>
      match escapeLetter? c with
      | some e => (stringBody rest).map fun (cs, rest) => (e :: cs, rest)
      | none => none
  | c :: rest =>
      if c.toNat < 0x20 || c == '\\' then none
      else (stringBody rest).map fun (cs, rest) => (c :: cs, rest)

/-- A word such as `true`. -/
def word (letters : List Char) (value : Json) : Front Json := fun text =>
  if letters.isPrefixOf text then some (value, text.drop letters.length) else none

/-- A document that is neither array nor object. -/
def scalar : Front Json
  | [] => none
  | '"' :: rest => (stringBody rest).map fun (cs, rest) => (.string (String.ofList cs), rest)
  | 'n' :: rest => word ['n', 'u', 'l', 'l'] .null ('n' :: rest)
  | 't' :: rest => word ['t', 'r', 'u', 'e'] (.bool true) ('t' :: rest)
  | 'f' :: rest => word ['f', 'a', 'l', 's', 'e'] (.bool false) ('f' :: rest)
  | text => (JsonNumber.read? text).map fun (n, rest) => (.number n, rest)

/-- Items up to a closing bracket, each but the last followed by a comma; at most one for every
character of the first text. -/
def items (value : Front Json) : List Char → Front (List Json)
  | [], _ => none
  | _ :: fuel, text => do
      let (item, rest) ← value (skipBlanks text)
      match skipBlanks rest with
      | ']' :: rest => pure ([item], rest)
      | ',' :: rest =>
          let (more, rest) ← items value fuel rest
          pure (item :: more, rest)
      | _ => none

/-- A member: a key, a colon and a value. -/
def member (value : Front Json) : Front (String × Json) := fun text =>
  match skipBlanks text with
  | '"' :: rest => do
      let (key, rest) ← stringBody rest
      match skipBlanks rest with
      | ':' :: rest =>
          let (item, rest) ← value (skipBlanks rest)
          pure ((String.ofList key, item), rest)
      | _ => none
  | _ => none

/-- Members up to a closing brace, each but the last followed by a comma; at most one for every
character of the first text. -/
def members (value : Front Json) : List Char → Front (List (String × Json))
  | [], _ => none
  | _ :: fuel, text => do
      let (entry, rest) ← member value text
      match skipBlanks rest with
      | '\x7d' :: rest => pure ([entry], rest)
      | ',' :: rest =>
          let (more, rest) ← members value fuel rest
          pure (entry :: more, rest)
      | _ => none

/-- A document in which arrays and objects nest at most `depth` deep. -/
def document : Nat → Front Json
  | 0, text =>
      match text with
      | '[' :: _ => none
      | '\x7b' :: _ => none
      | text => scalar text
  | depth + 1, text =>
      match text with
      | '[' :: rest =>
          match skipBlanks rest with
          | ']' :: rest => some (.array [], rest)
          | _ => (items (document depth) rest rest).map fun (items, rest) =>
              (.array items, rest)
      | '\x7b' :: rest =>
          match skipBlanks rest with
          | '\x7d' :: rest => some (.object [], rest)
          | _ => (members (document depth) rest rest).map fun (members, rest) =>
              (.object members, rest)
      | text => scalar text

def maxDepth : Nat := 127

/-- A whole text as a document, members kept as written. -/
def readRaw? (text : String) : Option Json :=
  match document maxDepth (skipBlanks text.toList) with
  | some (value, rest) => if skipBlanks rest = [] then some value else none
  | none => none

/-- A whole text as a document with each key once. -/
def read? (text : String) : Option Json := (readRaw? text).map merged

end Json

end RequestQuery
