import RequestQuery.Diagnostic.Error

/-!
# Messages of the command line

Errors, log entries and their colours.
-/

namespace RequestQuery.CommandLine

inductive Style where
  | error
  | place
  | help
  | success
  | info
  | debug
  | dim
  deriving DecidableEq, Repr

/-- The codes of a style on a terminal. -/
def Style.codes : Style → String
  | .error => "1;31"
  | .place => "36"
  | .help => "1;33"
  | .success => "1;32"
  | .info => "32"
  | .debug => "34"
  | .dim => "2"

/-- A text in a style, if there are colours. -/
def paint (colored : Bool) (style : Style) (text : String) : String :=
  if colored then "\x1b[" ++ style.codes ++ "m" ++ text ++ "\x1b[0m" else text

/-- Why a command gives no result. -/
inductive Failure where
  | query (error : QueryError)
  | invalidRequest
  | unreadableConfig (path : String)
  | invalidConfig (path : String)
  | noRequest
  | unreadableRequest (path : String)
  | uncreatableOutput (path : String)
  deriving DecidableEq, Repr

namespace Failure

def message : Failure → String
  | .query error => error.message
  | .invalidRequest => "Request is not valid JSON"
  | .unreadableConfig path => "Failed to read config file: " ++ path
  | .invalidConfig path => "Invalid config file: " ++ path
  | .noRequest => "No request given: pass a file or pipe a JSON object into stdin"
  | .unreadableRequest path => "Failed to read request file: " ++ path
  | .uncreatableOutput path => "Failed to create output file: " ++ path

/-- The error of a query that a failure stands for. -/
def query? : Failure → Option QueryError
  | .query error => some error
  | _ => none

/-- The place, the code and the help of a diagnostic. -/
def details (colored : Bool) (d : Diagnostic) : String :=
  (match d.location with
    | some location => " " ++ paint colored .place ("(at " ++ location.text ++ ")")
    | none => "") ++
  " [" ++ d.code.text ++ "]" ++
  (match d.help with
    | some help => "\n  " ++ paint colored .help "help:" ++ " " ++ help
    | none => "")

def text (colored : Bool) (failure : Failure) : String :=
  paint colored .error "Error:" ++ " " ++ failure.message ++
    match failure.query? with
    | some error => details colored error.diagnostic
    | none => ""

end Failure

/-- How much an entry of the log matters. -/
inductive Level where
  | info
  | debug
  deriving DecidableEq, Repr

namespace Level

def name : Level → String
  | .info => "info"
  | .debug => "debug"

def style : Level → Style
  | .info => .info
  | .debug => .debug

end Level

structure Entry where
  level : Level
  target : String
  text : String
  deriving DecidableEq, Repr

def Entry.line (colored : Bool) (entry : Entry) : String :=
  paint colored entry.level.style entry.level.name ++ " " ++ paint colored .dim entry.target ++
    ": " ++ entry.text

end RequestQuery.CommandLine
