import RequestQuery.Filter.Literal
import RequestQuery.Filter.Settings
import RequestQuery.Filter.Scalar

/-!
# Terms and their grammar

A term is a filter as it is written, with its bracket short-hands:

    expression  := conjunction ( "OR" conjunction )*
    conjunction := term ( "AND" term )*
    term        := "(" expression ")" | name ( "." name | "[" expression "]" )* ( operator value )?

The grammar is defined level by level. The fuel of `Parser.expression` is the number of levels of
brackets it may enter, and one level is the grammar over a parser for what stands inside brackets.
-/

namespace RequestQuery

/-- The operator token and the value that end a path. -/
abbrev Ending := Spanned String × Value

mutual
/-- A filter as written. -/
inductive Term where
  | any (terms : List Term)
  | all (terms : List Term)
  /-- A path and its ending, which may follow later. -/
  | path (head : Spanned String) (steps : List Step) (ending : Option Ending) (span : Span)

/-- A part of a path behind its head. -/
inductive Step where
  /-- `.name` -/
  | segment (name : Spanned String)
  /-- `[expression]` -/
  | group (term : Term)
end

namespace Term

/-- Join several terms; a single one stands for itself. -/
def collapse (wrap : List Term → Term) : List Term → Term
  | [term] => term
  | terms => wrap terms

mutual
/-- The span of the first name of a term. -/
def start : Term → Span
  | .any terms => startList terms
  | .all terms => startList terms
  | .path head _ _ _ => head.span

def startList : List Term → Span
  | [] => .point 0
  | term :: _ => term.start
end

end Term

namespace Parser

/-- What stands between two brackets, separators around it. -/
def bracketed (opener closer : Char) (label : String) (inner : Parser Term) : Parser Term := do
  char opener
  commit do
    separators
    let term ← inner
    separators
    labelled label (char closer)
    pure term

def pathStep (inner : Parser Term) : Parser Step :=
  either
    (do char '.'
        let segment ← commit name
        pure (.segment segment))
    (do let term ← bracketed '[' ']' "`]`" inner
        pure (.group term))

/-- The longest run of operator characters, if it is a bound token. -/
def operatorToken (operators : OperatorTable) : Parser String := fun cursor =>
  match textOf isOperatorChar cursor with
  | .done token next =>
      if operators.has token then .done token next else .refused (.bare cursor)
  | .refused stop => .refused stop
  | .failed stop => .failed stop

def ending (operators : OperatorTable) : Parser Ending := do
  let token ← spanned (operatorToken operators)
  let value ← commit value
  pure (token, value)

def pathParts (operators : OperatorTable) (inner : Parser Term) :
    Parser (Spanned String × List Step × Option Ending) := do
  let head ← name
  let steps ← many (pathStep inner)
  let ending ← optional (ending operators)
  pure (head, steps, ending)

def path (operators : OperatorTable) (inner : Parser Term) : Parser Term := do
  let parts ← spanned (pathParts operators inner)
  let (head, steps, ending) := parts.value
  pure (.path head steps ending parts.span)

/-- An expression in parentheses, or a path. -/
def term (operators : OperatorTable) (inner : Parser Term) : Parser Term :=
  either (bracketed '(' ')' "`)`" inner) (path operators inner)

/-- One or more parts divided by a connective. -/
def joined (letters : List Char) (wrap : List Term → Term) (part : Parser Term) : Parser Term := do
  let first ← part
  let more ← many do
    connective letters
    commit part
  pure (Term.collapse wrap (first :: more))

/-- One level of the grammar over what stands inside brackets. -/
def expressionLevel (operators : OperatorTable) (inner : Parser Term) : Parser Term :=
  joined ['O', 'R'] .any (joined ['A', 'N', 'D'] .all (term operators inner))

/-- An expression with at most `fuel` levels, its own included. -/
def expression (operators : OperatorTable) : Nat → Parser Term
  | 0 => refuse
  | fuel + 1 => expressionLevel operators (expression operators fuel)

/-- A whole filter with at most `fuel` levels. -/
def filterText (operators : OperatorTable) (fuel : Nat) : Parser Term := do
  separators
  let term ← expression operators fuel
  separators
  labelled "`AND`, `OR` or end of input" atEnd
  pure term

end Parser

/-- Read a filter as written. Every level of brackets takes a character, so the fuel suffices. -/
def Term.parse (operators : OperatorTable) (source : String) : Except Fault Term :=
  (Parser.filterText operators (source.length + 1)).parse source

end RequestQuery
