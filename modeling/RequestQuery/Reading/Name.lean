import RequestQuery.Reading.Parser
import RequestQuery.Text.Blank

/-!
# Names and separators

Names are runs of ASCII letters, digits and underscores. Separators stand around connectives and just
inside brackets.
-/

namespace RequestQuery

def isNameChar (c : Char) : Bool := c.isAlphanum || c == '_'

/-- Whether a character may stand in a name that may be a placeholder. -/
def isBraceNameChar (c : Char) : Bool := isNameChar c || c == '\x7b' || c == '\x7d'

namespace Parser

/-- A run of characters of a class as a text. -/
def textOf (p : Char → Bool) : Parser String := do
  let chars ← run1 p
  pure (String.ofList chars)

def name : Parser (Spanned String) := labelled "attribute name" (spanned (textOf isNameChar))

/-- The name of an attribute, with braces where they are allowed. -/
def attributeName (braces : Bool) : Parser (Spanned String) :=
  if braces then labelled "attribute name" (spanned (textOf isBraceNameChar)) else name

/-- Separators, possibly none. -/
def separators : Parser Unit := do
  let _ ← run isSeparator
  pure ()

/-- A connective, which has separators on both sides. -/
def connective (letters : List Char) : Parser Unit := do
  let _ ← run1 isSeparator
  word letters
  let _ ← run1 isSeparator
  pure ()

end Parser

end RequestQuery
