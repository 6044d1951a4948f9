import RequestQuery.Text.Span

/-!
# Arguments of the command line

General options stand before or behind the name of the command; behind it they take precedence. An
option is given once at most on either side. `--` ends the options. Arguments that do not fit are a
usage error.
-/

namespace RequestQuery.CommandLine

/-- When to colour what goes to the error stream. -/
inductive ColorMode where
  | auto
  | always
  | never
  deriving DecidableEq, Repr

def ColorMode.ofName? (name : String) : Option ColorMode :=
  if name = "auto" then some .auto
  else if name = "always" then some .always
  else if name = "never" then some .never
  else none

/-- Whether there are colours, for an error stream that is a terminal or not. -/
def ColorMode.isColored : ColorMode → Bool → Bool
  | .always, _ => true
  | .never, _ => false
  | .auto, terminal => terminal

inductive Setting where
  | verbose
  | output
  | pretty
  | config
  | maxDepth
  | color
  /-- Only behind the name of the `select` command. -/
  | enableBraces
  deriving DecidableEq, Repr

namespace Setting

def takesValue : Setting → Bool
  | .verbose => false
  | .pretty => false
  | .enableBraces => false
  | _ => true

def ofLong? (name : String) : Option Setting :=
  if name = "verbose" then some .verbose
  else if name = "output" then some .output
  else if name = "pretty" then some .pretty
  else if name = "config" then some .config
  else if name = "max-depth" then some .maxDepth
  else if name = "color" then some .color
  else if name = "enable-braces" then some .enableBraces
  else none

def ofShort? (letter : Char) : Option Setting :=
  if letter = 'v' then some .verbose
  else if letter = 'o' then some .output
  else none

end Setting

/-- The options given on one side of the name of the command. -/
structure Options where
  verbose : Bool := false
  output : Option String := none
  pretty : Bool := false
  config : Option String := none
  maxDepth : Option Nat := none
  color : Option ColorMode := none
  enableBraces : Bool := false
  deriving DecidableEq, Repr

/-- A depth: digits, and a plus sign before them if need be, within 64 bits. -/
def depthOfText? (text : List Char) : Option Nat :=
  let digits := match text with
    | '+' :: cs => cs
    | cs => cs
  if digits ≠ [] ∧ digits.all Char.isDigit then
    let value := Nat.ofDigitChars 10 digits 0
    if value < Nat.pow 2 64 then some value else none
  else none

/-- Set an option. Setting it again or to a bad value is refused, and so is an empty path. -/
def Options.set (options : Options) (setting : Setting) (value : String) : Option Options :=
  match setting with
  | .verbose => if options.verbose then none else some { options with verbose := true }
  | .pretty => if options.pretty then none else some { options with pretty := true }
  | .enableBraces =>
      if options.enableBraces then none else some { options with enableBraces := true }
  | .output =>
      if options.output.isSome ∨ value = "" then none
      else some { options with output := some value }
  | .config =>
      if options.config.isSome ∨ value = "" then none
      else some { options with config := some value }
  | .maxDepth =>
      match options.maxDepth, depthOfText? value.toList with
      | none, some depth => some { options with maxDepth := some depth }
      | _, _ => none
  | .color =>
      match options.color, ColorMode.ofName? value with
      | none, some mode => some { options with color := some mode }
      | _, _ => none

/-- Options behind the name of the command over those before it. -/
def Options.over (inner outer : Options) : Options where
  verbose := inner.verbose || outer.verbose
  output := inner.output <|> outer.output
  pretty := inner.pretty || outer.pretty
  config := inner.config <|> outer.config
  maxDepth := inner.maxDepth <|> outer.maxDepth
  color := inner.color <|> outer.color
  enableBraces := inner.enableBraces

inductive Shape where
  /-- `--` -/
  | escape
  /-- `--name` or `--name=value` -/
  | long (name : String) (value : Option String)
  /-- `-letters` -/
  | short (letters : List Char)
  | plain
  deriving DecidableEq, Repr

/-- The shape of an argument; a single hyphen is plain. -/
def Shape.of (argument : String) : Shape :=
  match argument.toList with
  | ['-', '-'] => .escape
  | '-' :: '-' :: cs =>
      let name := String.ofList (cs.takeWhile (· != '='))
      match cs.dropWhile (· != '=') with
      | [] => .long name none
      | _ :: value => .long name (some (String.ofList value))
  | ['-'] => .plain
  | '-' :: cs => .short cs
  | _ => .plain

/-- Read letters of a short argument. What follows the letter of an option that takes a value is the
value; if nothing does the next argument is, and the option is left over. -/
def readLetters : List Char → Options → Option (Options × Option Setting)
  | [], options => some (options, none)
  | letter :: rest, options =>
      match Setting.ofShort? letter with
      | none => none
      | some setting =>
          if setting.takesValue then
            match rest with
            | [] => some (options, some setting)
            | '=' :: value => (options.set setting (String.ofList value)).map (·, none)
            | value => (options.set setting (String.ofList value)).map (·, none)
          else
            match options.set setting "" with
            | none => none
            | some options => readLetters rest options

/-- Read arguments into options. Behind the name of the command plain arguments are collected; before
it the first one ends the reading. -/
def readArguments (behind : Bool) : List String → Options → List String →
    Option (Options × List String × List String)
  | [], options, plain => some (options, plain, [])
  | argument :: rest, options, plain =>
      match Shape.of argument with
      | .escape => if behind then some (options, plain ++ rest, []) else none
      | .plain =>
          if behind then readArguments behind rest options (plain ++ [argument])
          else some (options, [argument], rest)
      | .long name value =>
          match Setting.ofLong? name, value with
          | none, _ => none
          | some setting, some value =>
              if setting.takesValue then
                match options.set setting value with
                | none => none
                | some options => readArguments behind rest options plain
              else none
          | some setting, none =>
              if setting.takesValue then
                match rest with
                | [] => none
                | value :: rest =>
                    if Shape.of value = .plain then
                      match options.set setting value with
                      | none => none
                      | some options => readArguments behind rest options plain
                    else none
              else
                match options.set setting "" with
                | none => none
                | some options => readArguments behind rest options plain
      | .short letters =>
          match readLetters letters options with
          | none => none
          | some (options, none) => readArguments behind rest options plain
          | some (options, some setting) =>
              match rest with
              | [] => none
              | value :: rest =>
                  if Shape.of value = .plain then
                    match options.set setting value with
                    | none => none
                    | some options => readArguments behind rest options plain
                  else none

inductive Command where
  | select (expression : String) (braces : Bool)
  | filter (expression : String)
  | order (expression : String)
  /-- Read a request from a file, or from the input without one. -/
  | request (file : Option String)
  deriving DecidableEq, Repr

def Command.of? (name : String) (plain : List String) (braces : Bool) : Option Command :=
  if name = "select" then
    match plain with
    | [expression] => some (.select expression braces)
    | _ => none
  else if braces then none
  else if name = "filter" then
    match plain with
    | [expression] => some (.filter expression)
    | _ => none
  else if name = "order" then
    match plain with
    | [expression] => some (.order expression)
    | _ => none
  else if name = "request" then
    match plain with
    | [] => some (.request none)
    | [file] => if file = "" then none else some (.request (some file))
    | _ => none
  else none

/-- A call of the program. -/
structure Invocation where
  options : Options
  command : Command
  deriving DecidableEq, Repr

/-- The call that arguments make, unless they are a usage error. -/
def Invocation.ofArguments? (arguments : List String) : Option Invocation :=
  match readArguments false arguments {} [] with
  | some (outer, [name], rest) =>
      if outer.enableBraces then none
      else
        match readArguments true rest {} [] with
        | some (inner, plain, _) =>
            (Command.of? name plain inner.enableBraces).map fun command =>
              ⟨inner.over outer, command⟩
        | none => none
  | _ => none

end RequestQuery.CommandLine
