/-!
# Spans and locations

A span is a byte range of a text. A location is where the span starts as a reader counts it: lines
and columns from one, columns in characters, while offset and length stay in bytes.
-/

namespace RequestQuery

/-- The number of bytes a run of characters takes in UTF-8. -/
def byteLength : List Char → Nat
  | [] => 0
  | c :: cs => c.utf8Size + byteLength cs

@[simp] theorem byteLength_nil : byteLength [] = 0 := rfl

@[simp] theorem byteLength_cons (c : Char) (cs : List Char) :
    byteLength (c :: cs) = c.utf8Size + byteLength cs := rfl

@[simp] theorem byteLength_append (cs ds : List Char) :
    byteLength (cs ++ ds) = byteLength cs + byteLength ds := by
  induction cs with
  | nil => simp
  | cons c cs ih => simp [ih, Nat.add_assoc]

/-- The bytes of a text are those of its characters. -/
theorem byteLength_toList (s : String) : byteLength s.toList = s.utf8ByteSize := by
  have h : ∀ cs : List Char, byteLength cs = (String.ofList cs).utf8ByteSize := by
    intro cs
    induction cs with
    | nil => simp
    | cons c cs ih =>
        have hone : String.ofList (c :: cs) = String.singleton c ++ String.ofList cs := by
          rw [String.singleton_eq_ofList, ← String.ofList_append]; rfl
        rw [byteLength_cons, ih, hone, String.utf8ByteSize_append, String.utf8ByteSize_singleton]
  rw [h, String.ofList_toList]

/-- The byte range `start..stop` of a text. -/
structure Span where
  start : Nat
  stop : Nat
  deriving DecidableEq, Repr

namespace Span

def point (offset : Nat) : Span := ⟨offset, offset⟩

/-- A span of a part that starts `offset` bytes into a text, as a span of that text. -/
def shift (span : Span) (offset : Nat) : Span := ⟨span.start + offset, span.stop + offset⟩

theorem shift_shift (span : Span) (a b : Nat) : (span.shift a).shift b = span.shift (a + b) := by
  simp [shift, Nat.add_assoc]

end Span

/-- A value together with the span it was read from. -/
structure Spanned (α : Type) where
  value : α
  span : Span
  deriving DecidableEq, Repr

/-- The characters before byte `offset`, when that offset is a character boundary of the text. -/
def charsBefore : Nat → List Char → Option (List Char)
  | 0, _ => some []
  | _ + 1, [] => none
  | offset + 1, c :: cs =>
      if c.utf8Size ≤ offset + 1 then
        (charsBefore (offset + 1 - c.utf8Size) cs).map (c :: ·)
      else none

/-- Line and column reached after reading `cs` from a given line and column. -/
def advance : Nat × Nat → List Char → Nat × Nat
  | place, [] => place
  | (line, column), c :: cs =>
      advance (if c = '\n' then (line + 1, 1) else (line, column + 1)) cs

/-- Where a span starts in its text, with its extent. -/
structure Location where
  line : Nat
  column : Nat
  offset : Nat
  length : Nat
  deriving DecidableEq, Repr

namespace Location

/-- The location of a span. A start that is no character boundary of the text counts as its end. -/
def ofSpan (span : Span) (source : String) : Location :=
  let before := (charsBefore span.start source.toList).getD source.toList
  let place := advance (1, 1) before
  ⟨place.1, place.2, span.start, span.stop - span.start⟩

def span (location : Location) : Span := ⟨location.offset, location.offset + location.length⟩

/-- Written as `line:column`. -/
def text (location : Location) : String := toString location.line ++ ":" ++ toString location.column

theorem span_ofSpan (span : Span) (source : String) (h : span.start ≤ span.stop) :
    (ofSpan span source).span = span := by
  cases span with
  | mk start stop => simp only [ofSpan, Location.span] at h ⊢; congr 1; omega

end Location

end RequestQuery
