import RequestQuery.Text.Span
import Mathlib.Data.List.Induction

/-!
# Spans that cover a part of a text

A span slices a text if it is the place of a run of whole characters. The location of such a span lies
inside the text, on boundaries of characters, and its line and column are what a reader counts up to
there.
-/

namespace RequestQuery

/-- The part of a text that a span covers. -/
def Slices (source : List Char) (span : Span) (text : List Char) : Prop :=
  ∃ before after, source = before ++ (text ++ after) ∧
    span = ⟨byteLength before, byteLength before + byteLength text⟩

namespace Slices

variable {source text part : List Char} {span inner : Span}

theorem point (before after : List Char) :
    Slices (before ++ after) (.point (byteLength before)) [] :=
  ⟨before, after, rfl, rfl⟩

theorem zero (source : List Char) : Slices source (.point 0) [] := point [] source

theorem start_le_stop (h : Slices source span text) : span.start ≤ span.stop := by
  obtain ⟨before, after, -, rfl⟩ := h
  exact Nat.le_add_right ..

theorem stop (h : Slices source span text) : Slices source (.point span.stop) [] := by
  obtain ⟨before, after, rfl, rfl⟩ := h
  refine ⟨before ++ text, after, by simp, ?_⟩
  simp [Span.point]

theorem within (h : Slices source span text) (h' : Slices text inner part) :
    Slices source (inner.shift span.start) part := by
  obtain ⟨before, after, rfl, rfl⟩ := h
  obtain ⟨before', after', rfl, rfl⟩ := h'
  refine ⟨before ++ before', after' ++ after, by simp, ?_⟩
  simp only [Span.shift, byteLength_append, Span.mk.injEq]
  omega

end Slices

theorem charsBefore_append (before rest : List Char) :
    charsBefore (byteLength before) (before ++ rest) = some before := by
  induction before with
  | nil => rw [byteLength_nil, charsBefore]
  | cons c before ih =>
      have hpos := c.utf8Size_pos
      obtain ⟨n, hn⟩ : ∃ n, c.utf8Size = n + 1 := ⟨c.utf8Size - 1, by omega⟩
      have hlength : byteLength (c :: before) = (n + byteLength before) + 1 := by
        rw [byteLength_cons, hn]
        omega
      have hrest : n + byteLength before + 1 - c.utf8Size = byteLength before := by omega
      rw [hlength, List.cons_append, charsBefore, if_pos (by omega), hrest, ih]
      rfl

theorem advance_append (place : Nat × Nat) (cs ds : List Char) :
    advance place (cs ++ ds) = advance (advance place cs) ds := by
  induction cs generalizing place with
  | nil => rfl
  | cons c cs ih => exact ih _

/-- The line is told by the line breaks so far, the column by what stands behind the last of them. -/
theorem advance_eq (cs : List Char) :
    advance (1, 1) cs =
      (cs.count '\n' + 1, (cs.reverse.takeWhile (· != '\n')).length + 1) := by
  induction cs using List.reverseRecOn with
  | nil => rfl
  | append_singleton cs c ih =>
      rw [advance_append, ih, List.reverse_append, List.reverse_singleton, List.singleton_append,
        List.count_append]
      by_cases hbreak : c = '\n'
      · simp [advance, hbreak]
      · simp [advance, hbreak]

namespace Location

/-- Both ends of a location are boundaries of characters of the text. -/
structure Inside (source : String) (location : Location) : Prop where
  start : (⟨location.offset⟩ : String.Pos.Raw).IsValid source
  stop : (⟨location.offset + location.length⟩ : String.Pos.Raw).IsValid source
  bound : location.offset + location.length ≤ source.utf8ByteSize

/-- Line and column are counted up to the offset: one more than the line breaks before it, and one more
than the characters behind the last of them. -/
def Counted (source : List Char) (location : Location) : Prop :=
  ∃ before after, source = before ++ after ∧ location.offset = byteLength before ∧
    location.line = before.count '\n' + 1 ∧
    location.column = (before.reverse.takeWhile (· != '\n')).length + 1

variable {source : String} {span : Span} {text : List Char}

theorem span_of_slices (h : Slices source.toList span text) : (ofSpan span source).span = span :=
  span_ofSpan span source h.start_le_stop

private theorem isValid_of_append {before after : List Char}
    (h : source.toList = before ++ after) :
    (⟨byteLength before⟩ : String.Pos.Raw).IsValid source := by
  rw [String.Pos.Raw.isValid_iff_exists_append]
  refine ⟨String.ofList before, String.ofList after, ?_, ?_⟩
  · rw [← String.ofList_append, ← h, String.ofList_toList]
  · have hsize := byteLength_toList (String.ofList before)
    rw [String.toList_ofList] at hsize
    rw [hsize]
    rfl

theorem inside_of_slices (h : Slices source.toList span text) : (ofSpan span source).Inside source := by
  have hspan := span_of_slices h
  obtain ⟨before, after, hsource, rfl⟩ := h
  have hstop : (ofSpan ⟨byteLength before, byteLength before + byteLength text⟩ source).offset +
      (ofSpan ⟨byteLength before, byteLength before + byteLength text⟩ source).length =
        byteLength (before ++ text) := by
    rw [byteLength_append]
    exact congrArg Span.stop hspan
  have hvalid : (⟨byteLength (before ++ text)⟩ : String.Pos.Raw).IsValid source :=
    isValid_of_append (hsource.trans (List.append_assoc ..).symm)
  refine ⟨isValid_of_append hsource, ?_, ?_⟩
  · rwa [hstop]
  · rw [hstop]
    exact hvalid.le_utf8ByteSize

theorem counted_of_slices (h : Slices source.toList span text) :
    (ofSpan span source).Counted source.toList := by
  obtain ⟨before, after, hsource, rfl⟩ := h
  refine ⟨before, text ++ after, hsource, rfl, ?_⟩
  simp only [ofSpan, hsource, charsBefore_append, Option.getD_some, advance_eq, and_self]

end Location

end RequestQuery
