import RequestQuery.Diagnostic.Fault
import RequestQuery.Proofs.Text.Slices

/-!
# Findings that are placed

A fault is placed in a text if its span is a part of the text. What is reported of such a fault has a
location inside the text, and it keeps one when the text turns out to be a part of a longer one.
-/

namespace RequestQuery

def Fault.Placed (source : List Char) (fault : Fault) : Prop :=
  ∃ text, Slices source fault.span text

structure Fault.OfSyntax (source : List Char) (fault : Fault) : Prop where
  syntactic : fault.cause.isSemantic = false
  placed : fault.Placed source

theorem Cause.code_of_syntax {cause : Cause} (h : cause.isSemantic = false) :
    1 ≤ cause.code.number ∧ cause.code.number ≤ 7 := by
  cases cause with
  | unexpected found expected => cases found <;> (rw [code]; decide)
  | emptyExpression | number | nestedTooDeep | pathTooLong | missingOperator | alreadyCompared
  | duplicateParameter =>
      rw [code]
      decide
  | unknownOperator | rangeOperator | conflict | emptyGroup | reservedParameter => cases h

def Fault.finding (fault : Fault) (source : String) : Finding :=
  ⟨fault.cause.code, fault.cause.message, source, some (.ofSpan fault.span source), none⟩

theorem Fault.toError_eq (fault : Fault) (source : String) :
    fault.toError source =
      if fault.cause.isSemantic then .semantic (fault.finding source)
      else .syntactic (fault.finding source) := rfl

namespace Finding

/-- The finding names its expression and the place of a part of it. -/
structure Placed (source : String) (finding : Finding) : Prop where
  expression : finding.expression = source
  part : ∃ span text, Slices source.toList span text ∧
    finding.location = some (.ofSpan span source)

/-- The finding names its expression and a place inside it. -/
structure Located (source : String) (finding : Finding) : Prop where
  expression : finding.expression = source
  inside : ∃ location, finding.location = some location ∧ location.Inside source

variable {source : String} {finding : Finding}

theorem Placed.located (h : finding.Placed source) : finding.Located source := by
  obtain ⟨span, text, hslices, hlocation⟩ := h.part
  exact ⟨h.expression, _, hlocation, Location.inside_of_slices hslices⟩

theorem placed_of_fault {fault : Fault} (h : fault.Placed source.toList) :
    (fault.finding source).Placed source := by
  obtain ⟨text, hslices⟩ := h
  exact ⟨rfl, _, text, hslices, rfl⟩

/-- A finding in a part of a text is one in the text, further on by what stands before the part. -/
theorem reanchor_of_slices {part : String} {span inner : Span} {text : List Char}
    (hpart : Slices source.toList span part.toList) (hinner : Slices part.toList inner text)
    (hlocation : finding.location = some (.ofSpan inner part)) :
    Slices source.toList (inner.shift span.start) text ∧
      (finding.reanchor span.start source).location =
        some (.ofSpan (inner.shift span.start) source) := by
  refine ⟨hpart.within hinner, ?_⟩
  simp only [reanchor, hlocation, Location.span_of_slices hinner]

theorem Placed.reanchor {part : String} {span : Span} (h : finding.Placed part)
    (hpart : Slices source.toList span part.toList) :
    (finding.reanchor span.start source).Placed source := by
  obtain ⟨inner, text, hinner, hlocation⟩ := h.part
  obtain ⟨hslices, hmoved⟩ := reanchor_of_slices hpart hinner hlocation
  exact ⟨rfl, _, text, hslices, hmoved⟩

theorem reanchor_reanchor (finding : Finding) (a b : Nat) (s t : String) :
    (finding.reanchor a s).reanchor b t = finding.reanchor (a + b) t := by
  have hmoved : ∀ span : Span, span.start ≤ span.stop →
      (Location.ofSpan (span.shift a) s).span.shift b = span.shift (a + b) := by
    intro span hspan
    rw [Location.span_ofSpan _ _ (Nat.add_le_add_right hspan a), Span.shift_shift]
  obtain ⟨code, message, expression, _ | location, context⟩ := finding
  · have hpoint := hmoved (.point 0) Nat.le.refl
    simp only [Span.shift, Span.point, Nat.zero_add] at hpoint
    simp only [reanchor, Span.point, Span.shift, hpoint]
  · simp only [reanchor, hmoved location.span (Nat.le_add_right ..)]

end Finding

theorem QueryError.reanchor_reanchor (error : QueryError) (a b : Nat) (s t : String) :
    (error.reanchor a s).reanchor b t = error.reanchor (a + b) t := by
  cases error with
  | syntactic finding | semantic finding => simp only [reanchor, finding.reanchor_reanchor]
  | validation code message | request key source => rfl

end RequestQuery
