import RequestQuery.Filter.Literal
import RequestQuery.Reading.Name

/-!
# Reading literals and values

A number is kept exactly or refused. Strings know two escapes, for the quote and the backslash.
-/

namespace RequestQuery

structure Numeral where
  negative : Bool
  whole : List Char
  /-- The digits behind the point, if there is one. -/
  fraction : Option (List Char)
  deriving DecidableEq, Repr

namespace Numeral

def chars (n : Numeral) : List Char :=
  (if n.negative then ['-'] else []) ++ n.whole ++
    match n.fraction with
    | some digits => '.' :: digits
    | none => []

/-- The literal a numeral denotes: an integer if it has no point and fits 64 bits, else a decimal
that keeps every digit. -/
def literal (n : Numeral) : Except NumberFault Literal :=
  let magnitude := Int.ofNat (Nat.ofDigitChars 10 n.whole 0)
  let integer? := if n.fraction.isNone then
      Literal.ofInt? (if n.negative then -magnitude else magnitude)
    else none
  match integer? with
  | some literal => .ok literal
  | none =>
      let text := String.ofList n.chars
      match Decimal.accumulate n.whole (n.fraction.getD []) with
      | .kept mantissa scale =>
          match Decimal.signed? n.negative mantissa scale with
          | some d => .ok (.decimal d)
          | none => .error (.outOfRange text)
      | .rounded _ _ => .error (.inexact text)
      | .overflow => .error (.outOfRange text)

end Numeral

namespace Parser

/-- A character of a string: any but a quote, those and backslashes behind a backslash. -/
def stringChar : Parser Char := fun cursor =>
  match cursor.rest with
  | [] => .refused (.bare cursor)
  | c :: rest =>
      if c = '"' then .refused (.bare cursor)
      else if c = '\\' then
        let behind : Cursor := ⟨cursor.offset + c.utf8Size, rest⟩
        match rest with
        | d :: rest =>
            if d = '"' ∨ d = '\\' then .done d ⟨behind.offset + d.utf8Size, rest⟩
            else .failed ⟨behind, ["`\"` or `\\` after `\\`"], none⟩
        | [] => .failed ⟨behind, ["`\"` or `\\` after `\\`"], none⟩
      else .done c ⟨cursor.offset + c.utf8Size, rest⟩

def string : Parser String := do
  char '"'
  let chars ← many stringChar
  labelled "closing `\"`" (commit (char '"'))
  pure (String.ofList chars)

/-- A minus sign, digits, and a point with more digits; the sign and the fraction may be missing. -/
def numeral : Parser Numeral := do
  let sign ← optional (char '-')
  let whole ← run1 Char.isDigit
  let fraction ← optional do
    char '.'
    run1 Char.isDigit
  pure ⟨sign.isSome, whole, fraction⟩

/-- A number that can be kept exactly. One that cannot is a failure at its first character. -/
def number : Parser Literal := fun cursor =>
  match numeral cursor with
  | .done n next =>
      match n.literal with
      | .ok literal => .done literal next
      | .error fault => .failed ⟨cursor, [], some fault⟩
  | .refused stop => .refused stop
  | .failed stop => .failed stop

def keyword? (letters : List Char) : Option Literal :=
  if letters = ['t', 'r', 'u', 'e'] then some (.boolean true)
  else if letters = ['f', 'a', 'l', 's', 'e'] then some (.boolean false)
  else if letters = ['n', 'u', 'l', 'l'] then some .null
  else none

/-- One of the words `true`, `false` and `null`, up to the end of the name characters. -/
def keyword : Parser Literal := fun cursor =>
  match run1 isNameChar cursor with
  | .done letters next =>
      match keyword? letters with
      | some literal => .done literal next
      | none => .refused (.bare cursor)
  | .refused stop => .refused stop
  | .failed stop => .failed stop

def literal : Parser Literal :=
  labelled "value" (either (do let s ← string; pure (.text s)) (either number keyword))

/-- A literal, a range of two, or a set of several. -/
def value : Parser Value := do
  let first ← literal
  let last ← optional do
    word ['.', '.']
    commit literal
  match last with
  | some last => pure (.range first last)
  | none =>
      let more ← many do
        char ','
        commit literal
      if more.isEmpty then pure (.single first) else pure (.set (first :: more))

end Parser

end RequestQuery
