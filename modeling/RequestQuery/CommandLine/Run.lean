import RequestQuery.CommandLine.Arguments
import RequestQuery.CommandLine.Directory
import RequestQuery.CommandLine.Journal
import RequestQuery.Json.Printer
import RequestQuery.Json.Reader
import RequestQuery.SettingsDocument

/-!
# Running a command

A run reads files, prints and writes by means of a host. The same run works on the files of the machine
and on a directory that is a value.
-/

namespace RequestQuery.CommandLine

/-- What a run needs from the world. -/
structure Host (m : Type → Type) where
  /-- The text of a file, if it can be read. -/
  readFile : String → m (Option String)
  /-- All of the input, unless that is a terminal. -/
  readInput : m (Option String)
  /-- Write a file; false if it cannot be created. -/
  writeFile : String → String → m Bool
  /-- Print a line of output. -/
  print : String → m Unit
  /-- Print a line of errors. -/
  complain : String → m Unit

def selectResult (settings : SelectSettings) (source : String) : Except Failure Json :=
  match SelectTree.parse source settings with
  | .ok tree => .ok tree.toJson
  | .error error => .error (.query error)

def filterResult (settings : FilterSettings) (source : String) : Except Failure Json :=
  match Filter.parse source settings with
  | .ok filter => .ok filter.toJson
  | .error error => .error (.query error)

def orderResult (source : String) : Except Failure Json :=
  match Order.parse source with
  | .ok order => .ok order.toJson
  | .error error => .error (.query error)

def requestResult (settings : SelectSettings) (text : String) : Except Failure Json :=
  match Json.read? text with
  | none => .error .invalidRequest
  | some document =>
      match Request.parse document settings with
      | .ok request => .ok request.toJson
      | .error error => .error (.query error)

/-- The entries that the text of a request makes. -/
def requestTextJournal (settings : SelectSettings) (text : String) : List Entry :=
  match Json.read? text with
  | none => []
  | some document => requestJournal settings document

def configOfText? (text : String) : Option FilterSettings :=
  match Json.readRaw? text with
  | none => none
  | some document =>
      match FilterSettings.ofJson document with
      | .ok settings => some settings
      | .error _ => none

/-- The settings of a run: a depth given as an option applies everywhere. -/
def settingsOf (filter : FilterSettings) (maxDepth : Option Nat) : SelectSettings :=
  let settings := { SelectSettings.initial with filter := filter }
  match maxDepth with
  | some depth => settings.withAllDepths depth
  | none => settings

section

variable {m : Type → Type} [Monad m] (host : Host m)

/-- Print the entries of the log if the run is verbose. -/
def logAll (verbose colored : Bool) : List Entry → m Unit
  | [] => pure ()
  | entry :: rest => do
      if verbose then host.complain (entry.line colored)
      logAll verbose colored rest

def loadConfig (options : Options) (colored : Bool) : m (Except Failure FilterSettings) :=
  match options.config with
  | none => pure (.ok .initial)
  | some path => do
      match ← host.readFile path with
      | none => pure (.error (.unreadableConfig path))
      | some text =>
          match configOfText? text with
          | none => pure (.error (.invalidConfig path))
          | some settings => do
              logAll host options.verbose colored
                [⟨.debug, "floraql::cli::commands", "loaded filter config from " ++ path⟩]
              pure (.ok settings)

/-- The result of a command, its journal printed. -/
def perform (options : Options) (colored : Bool) (settings : SelectSettings) (command : Command) :
    m (Except Failure Json) := do
  let log := logAll host options.verbose colored
  match command with
  | .select expression braces =>
      let settings := { settings with braces := braces }
      log (selectJournal settings expression)
      pure (selectResult settings expression)
  | .filter expression =>
      log (filterJournal settings.filter expression)
      pure (filterResult settings.filter expression)
  | .order expression => pure (orderResult expression)
  | .request none =>
      match ← host.readInput with
      | none => pure (.error .noRequest)
      | some text =>
          log (requestTextJournal settings text)
          pure (requestResult settings text)
  | .request (some path) =>
      match ← host.readFile path with
      | none => pure (.error (.unreadableRequest path))
      | some text =>
          log (requestTextJournal settings text)
          pure (requestResult settings text)

/-- Print a result, or write it to the output file. -/
def deliver (options : Options) (colored : Bool) (result : Json) : m (Except Failure Unit) := do
  let text := result.render options.pretty
  match options.output with
  | none =>
      host.print text
      pure (.ok ())
  | some path =>
      if ← host.writeFile path (text ++ "\n") then
        logAll host options.verbose colored
          [⟨.info, "floraql::cli::output",
            paint colored .success "Success:" ++ " Output written to " ++ path⟩]
        pure (.ok ())
      else pure (.error (.uncreatableOutput path))

/-- Load the configuration, perform the command and deliver its result. -/
def attempt (invocation : Invocation) (colored : Bool) : m (Except Failure Unit) := do
  match ← loadConfig host invocation.options colored with
  | .error failure => pure (.error failure)
  | .ok filter =>
      let settings := settingsOf filter invocation.options.maxDepth
      match ← perform host invocation.options colored settings invocation.command with
      | .error failure => pure (.error failure)
      | .ok result => deliver host invocation.options colored result

/-- Run a call of the program and give its exit code, `terminal` being whether errors go to one. -/
def run (terminal : Bool) (arguments : List String) : m Nat :=
  match Invocation.ofArguments? arguments with
  | none => pure 2
  | some invocation => do
      let colored := (invocation.options.color.getD .auto).isColored terminal
      match ← attempt host invocation colored with
      | .ok () => pure 0
      | .error failure =>
          host.complain (failure.text colored)
          pure 1

end

/-- A world that is a value: a directory, an input, and what was printed. -/
structure World where
  directory : Directory
  input : String
  output : String
  errors : String

/-- The host that works on such a world. -/
def World.host : Host (StateM World) where
  readFile := fun path => do pure ((← get).directory.read? path)
  readInput := do pure (some (← get).input)
  writeFile := fun path text => do
    match (← get).directory.write? path text with
    | some directory =>
        modify fun world => { world with directory := directory }
        pure true
    | none => pure false
  print := fun line => modify fun world => { world with output := world.output ++ line ++ "\n" }
  complain := fun line => modify fun world => { world with errors := world.errors ++ line ++ "\n" }

/-- Run a call in a world; the exit code and the world after it. -/
def World.run (world : World) (arguments : List String) : Nat × World :=
  (CommandLine.run World.host false arguments).run world

end RequestQuery.CommandLine
