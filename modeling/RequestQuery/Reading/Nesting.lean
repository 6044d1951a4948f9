import RequestQuery.Diagnostic.Fault

/-!
# Quotes and nesting

A scan of a text that skips quoted strings. It bounds how deep brackets nest before a grammar looks at
the text, and it finds the end of a parameter value.
-/

namespace RequestQuery

/-- Where a scan stands with respect to quoted strings. -/
inductive QuoteState where
  | outside
  | inside
  /-- Behind a backslash inside a string. -/
  | escaped
  deriving DecidableEq, Repr

namespace QuoteState

def step : QuoteState → Char → QuoteState
  | .outside, c => if c = '"' then .inside else .outside
  | .inside, c => if c = '\\' then .escaped else if c = '"' then .outside else .inside
  | .escaped, _ => .inside

/-- Whether a character belongs to a string, its quotes included. -/
def skips : QuoteState → Char → Bool
  | .outside, c => c == '"'
  | _, _ => true

end QuoteState

namespace Nesting

def isOpener (c : Char) : Bool := c == '(' || c == '['

def isCloser (c : Char) : Bool := c == ')' || c == ']'

/-- The offset of the first opener that has `limit` open ones before it. Closers without an opener
do not count. -/
def firstTooDeep (limit : Nat) : QuoteState → Nat → Nat → List Char → Option Nat
  | _, _, _, [] => none
  | quotes, depth, offset, c :: cs =>
      let next := fun depth => firstTooDeep limit (quotes.step c) depth (offset + c.utf8Size) cs
      if quotes.skips c then next depth
      else if isOpener c then if limit < depth + 1 then some offset else next (depth + 1)
      else if isCloser c then next (depth - 1)
      else next depth

/-- Refuse a text whose brackets nest deeper than `limit`. -/
def check (source : String) (limit : Nat) : Except Fault Unit :=
  match firstTooDeep limit .outside 0 0 source.toList with
  | some offset => .error ⟨.nestedTooDeep limit, ⟨offset, offset + 1⟩⟩
  | none => .ok ()

/-- The characters up to the parenthesis that closes a parameter. Parentheses inside are balanced and
strings are skipped; without a closing one the value is all that is left. -/
def valueChars : QuoteState → Nat → List Char → List Char
  | _, _, [] => []
  | quotes, depth, c :: cs =>
      let next := fun depth => c :: valueChars (quotes.step c) depth cs
      if quotes.skips c then next depth
      else if c = '(' then next (depth + 1)
      else if c = ')' then
        match depth with
        | 0 => []
        | depth + 1 => next depth
      else next depth

end Nesting

end RequestQuery
