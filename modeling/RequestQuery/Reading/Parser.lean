import RequestQuery.Diagnostic.Fault

/-!
# Parsers

A parser reads from the front of a text. It finishes with a value and the text that is left, or it
refuses, so that another alternative may be tried, or it fails for good. A refusal becomes a failure
behind a point of no return, `Parser.commit`. Either way it says where reading stood and what was
expected there, innermost text first.
-/

namespace RequestQuery

/-- Where reading stands: the bytes read so far and the characters to come. -/
structure Cursor where
  offset : Nat
  rest : List Char
  deriving DecidableEq, Repr

namespace Cursor

def start (source : String) : Cursor := ⟨0, source.toList⟩

/-- The cursor behind a run of characters at its front. -/
def skip (cursor : Cursor) (run : List Char) : Cursor :=
  ⟨cursor.offset + byteLength run, cursor.rest.drop run.length⟩

end Cursor

/-- Where a reading stopped, what was expected there, and a number that could not be kept. -/
structure Stop where
  place : Cursor
  expected : List String
  number : Option NumberFault
  deriving DecidableEq, Repr

namespace Stop

/-- Stop at a place without a word on what is expected. -/
def bare (place : Cursor) : Stop := ⟨place, [], none⟩

/-- The fault a stop is reported as: the number, or else the character reading stood at. -/
def fault (stop : Stop) : Fault :=
  let offset := stop.place.offset
  match stop.number with
  | some number => ⟨.number number, ⟨offset, offset + byteLength number.text.toList⟩⟩
  | none =>
      match stop.place.rest with
      | c :: _ => ⟨.unexpected (some c) stop.expected, ⟨offset, offset + c.utf8Size⟩⟩
      | [] => ⟨.unexpected none stop.expected, .point offset⟩

end Stop

inductive Reading (α : Type) where
  /-- A value was read; the cursor stands behind it. -/
  | done (value : α) (next : Cursor)
  /-- Nothing was read, and something else may be tried in its place. -/
  | refused (stop : Stop)
  /-- The text is wrong. -/
  | failed (stop : Stop)
  deriving Repr

def Parser (α : Type) := Cursor → Reading α

namespace Parser

variable {α β : Type}

protected def pure (value : α) : Parser α := fun cursor => .done value cursor

/-- Read one thing and then what follows from it. -/
protected def bind (p : Parser α) (f : α → Parser β) : Parser β := fun cursor =>
  match p cursor with
  | .done value next => f value next
  | .refused stop => .refused stop
  | .failed stop => .failed stop

instance : Monad Parser where
  pure := Parser.pure
  bind := Parser.bind

/-- Refuse where reading stands. -/
def refuse : Parser α := fun cursor => .refused (.bare cursor)

/-- Name what is expected where the parser stops. -/
def labelled (label : String) (p : Parser α) : Parser α := fun cursor =>
  match p cursor with
  | .done value next => .done value next
  | .refused stop => .refused { stop with expected := stop.expected ++ [label] }
  | .failed stop => .failed { stop with expected := stop.expected ++ [label] }

/-- From here on there is no other alternative: a refusal is a failure. -/
def commit (p : Parser α) : Parser α := fun cursor =>
  match p cursor with
  | .refused stop => .failed stop
  | other => other

/-- A part that may be missing. -/
def optional (p : Parser α) : Parser (Option α) := fun cursor =>
  match p cursor with
  | .done value next => .done (some value) next
  | .refused _ => .done none cursor
  | .failed stop => .failed stop

/-- The first of two alternatives that does not refuse. -/
def either (p q : Parser α) : Parser α := fun cursor =>
  match p cursor with
  | .refused _ => q cursor
  | other => other

/-- Repeat a parser until it refuses, at most once for every character of `fuel`. -/
def manyAlong (p : Parser α) : List Char → Parser (List α)
  | [] => fun cursor => .done [] cursor
  | _ :: fuel => fun cursor =>
      match p cursor with
      | .done value next =>
          match manyAlong p fuel next with
          | .done values last => .done (value :: values) last
          | .refused stop => .refused stop
          | .failed stop => .failed stop
      | .refused _ => .done [] cursor
      | .failed stop => .failed stop

/-- Repeat a parser that never reads nothing until it refuses. -/
def many (p : Parser α) : Parser (List α) := fun cursor => manyAlong p cursor.rest cursor

/-- A value with the span it was read from. -/
def spanned (p : Parser α) : Parser (Spanned α) := fun cursor =>
  match p cursor with
  | .done value next => .done ⟨value, ⟨cursor.offset, next.offset⟩⟩ next
  | .refused stop => .refused stop
  | .failed stop => .failed stop

def char (c : Char) : Parser Unit := fun cursor =>
  match cursor.rest with
  | d :: rest =>
      if d = c then .done () ⟨cursor.offset + d.utf8Size, rest⟩ else .refused (.bare cursor)
  | [] => .refused (.bare cursor)

def word (letters : List Char) : Parser Unit := fun cursor =>
  if letters.isPrefixOf cursor.rest then .done () (cursor.skip letters)
  else .refused (.bare cursor)

/-- The longest run of characters of a class, possibly empty. -/
def run (p : Char → Bool) : Parser (List Char) := fun cursor =>
  let taken := cursor.rest.takeWhile p
  .done taken ⟨cursor.offset + byteLength taken, cursor.rest.dropWhile p⟩

/-- The longest run of characters of a class, at least one. -/
def run1 (p : Char → Bool) : Parser (List Char) := fun cursor =>
  match cursor.rest.takeWhile p with
  | [] => .refused (.bare cursor)
  | taken => .done taken ⟨cursor.offset + byteLength taken, cursor.rest.dropWhile p⟩

def atEnd : Parser Unit := fun cursor =>
  match cursor.rest with
  | [] => .done () cursor
  | _ :: _ => .refused (.bare cursor)

/-- The value a parser reads from a whole text, or the fault it stops at. -/
def parse (p : Parser α) (source : String) : Except Fault α :=
  match p (.start source) with
  | .done value _ => .ok value
  | .refused stop => .error stop.fault
  | .failed stop => .error stop.fault

end Parser

end RequestQuery
