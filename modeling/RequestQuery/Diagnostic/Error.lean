import RequestQuery.Diagnostic.Code
import RequestQuery.Text.Span

/-!
# Errors and their diagnostics

An error of syntax or meaning carries the whole expression it was found in and, mostly, the place.
`reanchor` moves an error found in a part of a text to the enclosing text.
-/

namespace RequestQuery

/-- What is known of a fault found in an expression. -/
structure Finding where
  code : ErrorCode
  message : String
  expression : String
  location : Option Location
  context : Option String
  deriving DecidableEq, Repr

/-- Everything that can be wrong with a request or one of its expressions. -/
inductive QueryError where
  /-- The text does not match its grammar. -/
  | syntactic (finding : Finding)
  /-- The text matches its grammar and breaks another rule. -/
  | semantic (finding : Finding)
  /-- A single value has the wrong type or is out of range. -/
  | validation (code : ErrorCode) (message : String)
  /-- The property `key` of a request is wrong. -/
  | request (key : String) (source : QueryError)
  deriving DecidableEq, Repr

namespace QueryError

def syntaxAt (code : ErrorCode) (message expression : String) (span : Span) : QueryError :=
  .syntactic ⟨code, message, expression, some (.ofSpan span expression), none⟩

def semanticAt (code : ErrorCode) (message expression : String) (span : Span) : QueryError :=
  .semantic ⟨code, message, expression, some (.ofSpan span expression), none⟩

def unlocatedSyntax (code : ErrorCode) (message expression : String) : QueryError :=
  .syntactic ⟨code, message, expression, none, none⟩

def unlocatedSemantic (code : ErrorCode) (message : String) : QueryError :=
  .semantic ⟨code, message, "", none, none⟩

def code : QueryError → ErrorCode
  | .syntactic f => f.code
  | .semantic f => f.code
  | .validation code _ => code
  | .request _ source => source.code

def location : QueryError → Option Location
  | .syntactic f => f.location
  | .semantic f => f.location
  | .validation _ _ => none
  | .request _ source => source.location

def isSyntax : QueryError → Bool
  | .syntactic _ => true
  | .request _ source => source.isSyntax
  | _ => false

def isSemantic : QueryError → Bool
  | .semantic _ => true
  | .request _ source => source.isSemantic
  | _ => false

/-- The message; the error of a property is announced by the property's name. -/
def message : QueryError → String
  | .syntactic f => f.message
  | .semantic f => f.message
  | .validation _ message => message
  | .request key source => "Cannot parse " ++ key ++ ": " ++ source.message

/-- The note attached to the error itself, not to one that it wraps. -/
def context : QueryError → Option String
  | .syntactic f => f.context
  | .semantic f => f.context
  | _ => none

/-- Attach a note. Errors that have no expression take none. -/
def withContext (error : QueryError) (note : String) : QueryError :=
  match error with
  | .syntactic f => .syntactic { f with context := some note }
  | .semantic f => .semantic { f with context := some note }
  | other => other

end QueryError

/-- The finding seen from a text in which its expression starts at byte `offset`. -/
def Finding.reanchor (f : Finding) (offset : Nat) (source : String) : Finding :=
  let span := match f.location with
    | some location => location.span.shift offset
    | none => Span.point offset
  { f with expression := source, location := some (.ofSpan span source) }

/-- The error seen from a text in which its expression starts at byte `offset`. -/
def QueryError.reanchor (error : QueryError) (offset : Nat) (source : String) : QueryError :=
  match error with
  | .syntactic f => .syntactic (f.reanchor offset source)
  | .semantic f => .semantic (f.reanchor offset source)
  | other => other

/-- An error as it is shown: what, where, and what to do about it. -/
structure Diagnostic where
  code : ErrorCode
  message : String
  location : Option Location
  help : Option String
  deriving DecidableEq, Repr

/-- The error's own note is its help; without one the code's standing advice is. -/
def QueryError.diagnostic (error : QueryError) : Diagnostic where
  code := error.code
  message := error.message
  location := error.location
  help := error.context <|> error.code.info.help

/-- Written as `code: message at line:column`. -/
def Diagnostic.text (d : Diagnostic) : String :=
  d.code.text ++ ": " ++ d.message ++
    match d.location with
    | some location => " at " ++ location.text
    | none => ""

end RequestQuery
