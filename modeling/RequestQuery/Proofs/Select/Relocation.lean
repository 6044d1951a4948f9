import RequestQuery.Proofs.Filter.Faults
import RequestQuery.Proofs.Select.Lossless
import RequestQuery.Select.Merge

/-!
# Errors in parameters

The value of a parameter is read by the rule for its name as a text of its own. An error found there is
reported as an error of the select around it: at the same characters of the longer text, or at the whole
value if the rule gave no place.
-/

namespace RequestQuery

private theorem PagingProperty.check_error {property : PagingProperty} {value : Option Int}
    {error : QueryError} (h : property.check value = .error error) :
    ∃ code message, error = .validation code message ∧
      (code = .invalidType ∨ code = .valueOutOfRange) := by
  unfold PagingProperty.check at h
  split at h <;> cases h
  next fault _ =>
    cases fault with
    | notInteger => exact ⟨_, _, rfl, .inl rfl⟩
    | notPositive => exact ⟨_, _, rfl, .inr rfl⟩

namespace ParameterValue

private theorem wrap_error {α : Type} {make : α → ParameterValue} {outcome : Except QueryError α}
    {error : QueryError} (h : wrap make outcome = .error error) : outcome = .error error := by
  cases outcome <;> cases h
  rfl

/-- A filter is refused as a filter is, and orders, limits and pages as single values. All other
parameters take any text. -/
theorem parse_error {settings : FilterSettings} {name text : String} {error : QueryError}
    (h : parse settings name text = .error error) :
    (name = "filter" ∧ Filter.parse text settings = .error error) ∨
      ∃ code message, error = .validation code message ∧
        ((name = "order" ∧ code = .invalidOrder) ∨
          ((name = "limit" ∨ name = "page") ∧ (code = .invalidType ∨ code = .valueOutOfRange))) := by
  unfold parse at h
  split at h
  next hname => exact .inl ⟨hname, wrap_error h⟩
  next =>
    right
    split at h
    next hname =>
      have horder := wrap_error h
      unfold Order.parse at horder
      split at horder <;> cases horder
      exact ⟨_, _, rfl, .inl ⟨hname, rfl⟩⟩
    next =>
      split at h
      next hname =>
        have hlimit := wrap_error h
        unfold Limit.parse Limit.ofInteger at hlimit
        split at hlimit
        next => cases hlimit
        next =>
          split at hlimit <;> cases hlimit
          next hcheck =>
            obtain ⟨code, message, rfl, hcode⟩ := PagingProperty.check_error hcheck
            exact ⟨code, message, rfl, .inr ⟨.inl hname, hcode⟩⟩
      next =>
        split at h
        next hname =>
          obtain ⟨code, message, rfl, hcode⟩ := PagingProperty.check_error (wrap_error h)
          exact ⟨code, message, rfl, .inr ⟨.inr hname, hcode⟩⟩
        next =>
          split at h
          next => cases h
          next => split at h <;> cases h

end ParameterValue

namespace RawParameter

def note (raw : RawParameter) : String := "in parameter `" ++ raw.name.value ++ "`"

/-- A value that is refused is reported as an error of the select; a reserved name takes any value, so
it does not come in between. -/
theorem read_of_parse_error {settings : SelectSettings} {source : String} {raw : RawParameter}
    {error : QueryError}
    (h : ParameterValue.parse settings.filter raw.name.value raw.value.value = .error error) :
    raw.read settings source = .error (raw.relocate source error) := by
  have hname : raw.name.value ∈ ["filter", "order", "limit", "page"] := by
    rcases ParameterValue.parse_error h with ⟨hname, -⟩ | ⟨-, -, -, ⟨hname, -⟩ | ⟨hname | hname, -⟩⟩ <;>
      simp [hname]
  have hallowed : reservedParameters.contains raw.name.value = false := by
    generalize raw.name.value = name at hname
    revert name
    decide
  simp only [read, hallowed, h, Bool.false_eq_true, if_false]

end RawParameter

/-- A finding in the value of a parameter as a finding of the select around it. It is about the same
characters, and line and column are counted in the select. -/
structure Finding.Reanchored (raw : RawParameter) (source : String) (inner outer : Finding) :
    Prop where
  code : outer.code = inner.code
  message : outer.message = inner.message
  expression : outer.expression = source
  context : outer.context = some raw.note
  location : ∃ there here : Location, inner.location = some there ∧ outer.location = some here ∧
    here.offset = there.offset + raw.value.span.start ∧ here.length = there.length ∧
    here.Counted source.toList ∧
    ∃ text, Slices raw.value.value.toList there.span text ∧ Slices source.toList here.span text

theorem Finding.reanchored_of_placed {raw : RawParameter} {source : String} {finding : Finding}
    (hraw : raw.Exact source.toList) (h : finding.Placed raw.value.value) :
    finding.Reanchored raw source
      { finding.reanchor raw.value.span.start source with context := some raw.note } := by
  obtain ⟨span, text, hslices, hlocation⟩ := h.part
  obtain ⟨hmoved, hhere⟩ := Finding.reanchor_of_slices hraw.2 hslices hlocation
  refine ⟨rfl, rfl, rfl, rfl, _, _, hlocation, hhere, rfl, ?_, Location.counted_of_slices hmoved,
    text, ?_, ?_⟩
  · simp only [Location.ofSpan, Span.shift]
    omega
  · rwa [Location.span_of_slices hslices]
  · rwa [Location.span_of_slices hmoved]

theorem Filter.placed_of_parse_error {settings : FilterSettings} {source : String} {error : QueryError}
    (h : Filter.parse source settings = .error error) :
    ∃ finding : Finding, finding.Placed source ∧
      (error = .syntactic finding ∨ error = .semantic finding) := by
  rcases Filter.parse_error h with ⟨fault, hfault, rfl⟩ | ⟨raw, hraw, rfl⟩
  · exact ⟨_, Finding.placed_of_fault hfault.placed, .inl rfl⟩
  · exact ⟨_, Finding.placed_of_fault ⟨_, hraw.place⟩, .inr rfl⟩

theorem SelectStep.Exact.parameters {source : List Char} {step : SelectStep} (h : step.Exact source)
    {raw : RawParameter} (hraw : raw ∈ step.parameters) : raw.Exact source := by
  cases step with
  | named name parameters => exact h.2 raw hraw
  | group members parameters span => exact h.2.2 raw hraw

theorem SelectItem.exact_of_parse {source : String} {settings : SelectSettings}
    {items : List SelectItem} (h : SelectItem.parse source settings = .ok items) {step : SelectStep}
    (hstep : step ∈ SelectItem.allStepsList items) {raw : RawParameter}
    (hraw : raw ∈ step.parameters) : raw.Exact source.toList := by
  have hexact := exactList_of_selectText (parse_eq_ok.mp h).2.1
  exact (hexact.2 step hstep).parameters hraw

namespace RawParameter

/-- An error in the value of a parameter is reported at the same characters of the select, with its
class, code and message, or as an error of meaning at the whole value if it has no place. Moving an
error twice is moving it once. -/
theorem read_reanchors_errors :
    (∀ (source : String) (reading merging : SelectSettings) (items : List SelectItem),
      SelectItem.parse source reading = .ok items →
      ∀ step ∈ SelectItem.allStepsList items, ∀ raw ∈ step.parameters, ∀ error : QueryError,
        ParameterValue.parse merging.filter raw.name.value raw.value.value = .error error →
        (∃ inner outer, error = .syntactic inner ∧
          raw.read merging source = .error (.syntactic outer) ∧
          inner.Reanchored raw source outer) ∨
        (∃ inner outer, error = .semantic inner ∧
          raw.read merging source = .error (.semantic outer) ∧
          inner.Reanchored raw source outer) ∨
        ∃ code message here, error = .validation code message ∧
          raw.read merging source =
            .error (.semantic ⟨code, message, source, some here, some raw.note⟩) ∧
          here.span = raw.value.span ∧ here.Counted source.toList ∧
          Slices source.toList here.span raw.value.value.toList) ∧
    ∀ (error : QueryError) (a b : Nat) (s t : String),
      (error.reanchor a s).reanchor b t = error.reanchor (a + b) t := by
  refine ⟨?_, QueryError.reanchor_reanchor⟩
  intro source reading merging items hitems step hstep raw hraw error herror
  have hexact := SelectItem.exact_of_parse hitems hstep hraw
  rw [read_of_parse_error herror]
  rcases ParameterValue.parse_error herror with ⟨-, hfilter⟩ | ⟨code, message, rfl, -⟩
  · obtain ⟨finding, hplaced, rfl | rfl⟩ := Filter.placed_of_parse_error hfilter
    · exact .inl ⟨_, _, rfl, rfl, Finding.reanchored_of_placed hexact hplaced⟩
    · exact .inr (.inl ⟨_, _, rfl, rfl, Finding.reanchored_of_placed hexact hplaced⟩)
  · have hspan := Location.span_of_slices hexact.2
    refine .inr (.inr ⟨code, message, _, rfl, rfl, hspan, Location.counted_of_slices hexact.2, ?_⟩)
    rw [hspan]
    exact hexact.2

/-- `a(search=é↵é)(filter=x )`, its spans left out. -/
private def searchedItems : List SelectItem :=
  let span := Span.point 0
  [.chain [.named ⟨"a", span⟩
    [⟨⟨"search", span⟩, ⟨"é\né", span⟩⟩, ⟨⟨"filter", span⟩, ⟨"x ", span⟩⟩]] span]

private def openFilter : RawParameter := ⟨⟨"filter", ⟨16, 22⟩⟩, ⟨"x ", ⟨23, 25⟩⟩⟩

private def openFinding : Finding where
  code := .missingOperator
  message := "missing comparison operator after `x`"
  expression := "x "
  location := some ⟨1, 2, 1, 0⟩
  context := none

theorem read_reanchors_errors_lines :
    ParameterValue.parse .initial "filter" "x " = .error (.syntactic openFinding) ∧
    openFilter.read ⟨false, .initial, 1⟩ "a(search=é\né)(filter=x )" = .error (.syntactic
      { openFinding with
        expression := "a(search=é\né)(filter=x )"
        location := some ⟨2, 12, 24, 0⟩
        context := some "in parameter `filter`" }) ∧
    openFinding.Reanchored openFilter "a(search=é\né)(filter=x )"
      { openFinding with
        expression := "a(search=é\né)(filter=x )"
        location := some ⟨2, 12, 24, 0⟩
        context := some "in parameter `filter`" } := by
  have hparse : ParameterValue.parse .initial "filter" "x " = .error (.syntactic openFinding) := by
    decide +kernel
  have houter : openFilter.read ⟨false, .initial, 1⟩ "a(search=é\né)(filter=x )" =
      .error (.syntactic { openFinding with
        expression := "a(search=é\né)(filter=x )"
        location := some ⟨2, 12, 24, 0⟩
        context := some "in parameter `filter`" }) := by
    decide +kernel
  have hrender : SelectItem.render searchedItems = "a(search=é\né)(filter=x )" := by decide +kernel
  have hwritable : SelectItem.Writable false searchedItems := by
    refine ⟨by simp [searchedItems], ⟨⟨⟨by decide, ?_⟩, trivial⟩, trivial⟩, ?_⟩
    · simp only [List.forall_mem_cons, List.not_mem_nil, false_implies, implies_true, and_true]
      exact ⟨⟨by decide, by decide, by decide⟩, by decide, by decide, by decide⟩
    · simp [searchedItems, SelectItem.Distinct, SelectItem.allStepsList, SelectItem.allSteps,
        SelectStep.allStepsList, SelectStep.allSteps, SelectStep.parameterNames,
        SelectStep.parameters]
  have hitems : SelectItem.parse "a(search=é\né)(filter=x )" ⟨false, .initial, 1⟩ =
      .ok (SelectItem.placeList searchedItems 0) := by
    rw [← hrender]
    exact SelectItem.parse_render hwritable (by decide +kernel)
  have hread := read_reanchors_errors.1 _ ⟨false, .initial, 1⟩ ⟨false, .initial, 1⟩ _ hitems
    (.named ⟨"a", ⟨0, 1⟩⟩ [⟨⟨"search", ⟨2, 8⟩⟩, ⟨"é\né", ⟨9, 14⟩⟩⟩, openFilter])
    (List.mem_singleton.mpr rfl) openFilter (by simp [SelectStep.parameters]) _ hparse
  rw [houter] at hread
  refine ⟨hparse, houter, ?_⟩
  rcases hread with ⟨_, _, hinner, hread, hreanchored⟩ | ⟨_, _, hinner, -⟩ | ⟨_, _, _, hinner, -⟩
  · cases hinner
    cases hread
    exact hreanchored
  · cases hinner
  · cases hinner

end RawParameter

end RequestQuery
