import RequestQuery.Filter.Settings
import RequestQuery.Reading.Name
import RequestQuery.Reading.Nesting

/-!
# Select items and their grammar

A select lists chains of steps such as `a(limit=3).b[c,d]`:

    list      := item ( "," item )*
    item      := ( named | group ) ( "." named | group )*
    named     := name parameter*
    group     := "[" list? "]" parameter*
    parameter := "(" name "=" value ")"

Names with braces stand in first position at the top level only. As for filters, the fuel of
`Parser.itemList` is the number of levels of groups it may enter.
-/

namespace RequestQuery

structure RawParameter where
  name : Spanned String
  value : Spanned String
  deriving DecidableEq, Repr

mutual
/-- A chain of steps, each below the one before. -/
inductive SelectItem where
  | chain (steps : List SelectStep) (span : Span)

/-- One step of a chain. -/
inductive SelectStep where
  /-- `name(parameter=value)…` -/
  | named (name : Spanned String) (parameters : List RawParameter)
  /-- `[item,item](parameter=value)…`, the span being that of the brackets. -/
  | group (members : List SelectItem) (parameters : List RawParameter) (span : Span)
end

def SelectItem.steps : SelectItem → List SelectStep
  | .chain steps _ => steps

def SelectItem.span : SelectItem → Span
  | .chain _ span => span

def SelectStep.parameters : SelectStep → List RawParameter
  | .named _ parameters => parameters
  | .group _ parameters _ => parameters

namespace Parser

/-- The text of a parameter value, which is never empty. -/
def parameterText : Parser String := fun cursor =>
  match Nesting.valueChars .outside 0 cursor.rest with
  | [] => .refused (.bare cursor)
  | chars => .done (String.ofList chars) (cursor.skip chars)

def parameter : Parser RawParameter := do
  char '('
  commit do
    let name ← name
    labelled "`=`" (char '=')
    let value ← labelled "parameter value" (spanned parameterText)
    labelled "`)`" (char ')')
    pure ⟨name, value⟩

def namedStep (braces : Bool) : Parser SelectStep := do
  let name ← attributeName braces
  let parameters ← many parameter
  pure (.named name parameters)

def groupMembers (inner : Parser (List SelectItem)) : Parser (List SelectItem) := do
  char '['
  commit do
    let members ← optional inner
    labelled "`]`" (char ']')
    pure (members.getD [])

def groupStep (inner : Parser (List SelectItem)) : Parser SelectStep := do
  let members ← spanned (groupMembers inner)
  let parameters ← many parameter
  pure (.group members.value parameters members.span)

def nextStep (inner : Bool → Parser (List SelectItem)) : Parser SelectStep :=
  either
    (do char '.'
        commit (namedStep false))
    (groupStep (inner false))

def chainSteps (inner : Bool → Parser (List SelectItem)) (braces : Bool) :
    Parser (List SelectStep) := do
  let first ← either (namedStep braces) (groupStep (inner braces))
  let more ← many (nextStep inner)
  pure (first :: more)

/-- A chain with its span. -/
def item (inner : Bool → Parser (List SelectItem)) (braces : Bool) : Parser SelectItem := do
  let steps ← spanned (chainSteps inner braces)
  pure (.chain steps.value steps.span)

/-- One level of the grammar over what stands inside groups. -/
def itemListLevel (inner : Bool → Parser (List SelectItem)) (braces : Bool) :
    Parser (List SelectItem) := do
  let first ← item inner braces
  let more ← many do
    char ','
    commit (item inner braces)
  pure (first :: more)

/-- A list of items with at most `fuel` levels, its own included. -/
def itemList : Nat → Bool → Parser (List SelectItem)
  | 0 => fun _ => refuse
  | fuel + 1 => itemListLevel (itemList fuel)

/-- A whole select with at most `fuel` levels. -/
def selectText (braces : Bool) (fuel : Nat) : Parser (List SelectItem) := do
  let items ← itemList fuel braces
  labelled "`,` or end of input" atEnd
  pure items

end Parser

/-- The first parameter whose name was given before. -/
def firstRepeated (seen : List String) : List RawParameter → Option (Spanned String)
  | [] => none
  | parameter :: rest =>
      if seen.contains parameter.name.value then some parameter.name
      else firstRepeated (parameter.name.value :: seen) rest

mutual
/-- The first repeated parameter of a chain, a step's own before those of its members. -/
def SelectItem.repeated : SelectItem → Option (Spanned String)
  | .chain steps _ => SelectStep.repeatedList steps

def SelectItem.repeatedList : List SelectItem → Option (Spanned String)
  | [] => none
  | item :: rest => item.repeated <|> SelectItem.repeatedList rest

def SelectStep.repeated : SelectStep → Option (Spanned String)
  | .named _ parameters => firstRepeated [] parameters
  | .group members parameters _ => firstRepeated [] parameters <|> SelectItem.repeatedList members

def SelectStep.repeatedList : List SelectStep → Option (Spanned String)
  | [] => none
  | step :: rest => step.repeated <|> SelectStep.repeatedList rest
end

namespace SelectItem

/-- Read a select into its items, or say what is wrong with it. Every level of groups takes a
character, so the fuel suffices. -/
def parseFault (source : String) (settings : SelectSettings) : Except Fault (List SelectItem) :=
  if source.toList = [] then .error ⟨.emptyExpression "select", .point 0⟩
  else
    match Nesting.check source settings.maxDepth with
    | .error fault => .error fault
    | .ok () =>
        match (Parser.selectText settings.braces (source.length + 1)).parse source with
        | .error fault => .error fault
        | .ok items =>
            match repeatedList items with
            | some name => .error ⟨.duplicateParameter name.value, name.span⟩
            | none => .ok items

def parse (source : String) (settings : SelectSettings) : Except QueryError (List SelectItem) :=
  report source (parseFault source settings)

end SelectItem

end RequestQuery
