import RequestQuery.Proofs.Filter.Composition
import RequestQuery.Proofs.Select.Lossless
import RequestQuery.Select.Merge

/-!
# Filters as parameters

The value of a parameter ends at the parenthesis that closes it, and the scan that looks for it knows
nothing of filters. The text of a filter is balanced, so the scan passes over all of it and a filter
means the same inside a select as on its own.
-/

namespace RequestQuery

namespace Nesting

private theorem closesEven_plain {c : Char} (h : isPlain c = true) (depth : Nat) (rest : List Char) :
    closesEven .outside depth (c :: rest) = closesEven .outside depth rest := by
  simp only [isPlain, isOpener, isCloser, Bool.not_eq_true', Bool.or_eq_false_iff,
    beq_eq_false_iff_ne, ne_eq] at h
  simp [closesEven, depthBehind, QuoteState.skips, QuoteState.step, h]

private theorem closesEven_escapeChar (c : Char) (depth : Nat) (rest : List Char) :
    closesEven .inside depth (Literal.escapeChar c ++ rest) = closesEven .inside depth rest := by
  by_cases hquote : c = '"'
  · subst hquote
    simp [Literal.escapeChar, closesEven, depthBehind, QuoteState.skips, QuoteState.step]
  · by_cases hslash : c = '\\'
    · subst hslash
      simp [Literal.escapeChar, closesEven, depthBehind, QuoteState.skips, QuoteState.step]
    · simp [Literal.escapeChar, closesEven, depthBehind, QuoteState.skips, QuoteState.step, hquote,
        hslash]

private theorem closesEven_quoted (cs : List Char) (depth : Nat) (rest : List Char) :
    closesEven .outside depth ('"' :: cs.flatMap Literal.escapeChar ++ ['"'] ++ rest) =
      closesEven .outside depth rest := by
  have hinside : closesEven .inside depth (cs.flatMap Literal.escapeChar ++ '"' :: rest) =
      closesEven .outside depth rest := by
    induction cs with
    | nil => simp [closesEven, depthBehind, QuoteState.skips, QuoteState.step]
    | cons c cs ih => rw [List.flatMap_cons, List.append_assoc, closesEven_escapeChar, ih]
  simpa [closesEven, depthBehind, QuoteState.skips, QuoteState.step] using hinside

/-- The scan stands behind a balanced text as it stood before it. -/
theorem closesEven_balanced {cs : List Char} {d : Nat} (h : Balanced d cs) (depth : Nat)
    (rest : List Char) :
    closesEven .outside depth (cs ++ rest) = closesEven .outside depth rest := by
  induction h generalizing depth rest with
  | nil => rfl
  | plain d hc => exact closesEven_plain hc depth rest
  | quoted d cs => exact closesEven_quoted cs depth rest
  | append _ _ ih ih' => rw [List.append_assoc, ih, ih']
  | parentheses h ih =>
      have hinner := ih (depth + 1) (')' :: rest)
      simpa [closesEven, depthBehind, QuoteState.skips, QuoteState.step] using hinner
  | brackets h ih =>
      -- Only parentheses count here, so the inner text is scanned at the same depth.
      have hinner := ih depth (']' :: rest)
      simpa [closesEven, depthBehind, QuoteState.skips, QuoteState.step] using hinner

end Nesting

theorem Filter.closesEven_of_parse {settings : FilterSettings} {f : String} {filter : Filter}
    (h : Filter.parse f settings = .ok filter) :
    Nesting.closesEven .outside 0 f.toList = true := by
  obtain ⟨d, hd, -⟩ := Filter.parse_eq_ok_iff.mp h
  have hscan := Nesting.closesEven_balanced hd.balanced 0 []
  rwa [List.append_nil] at hscan

theorem Filter.toList_ne_nil_of_parse {settings : FilterSettings} {f : String} {filter : Filter}
    (h : Filter.parse f settings = .ok filter) : f.toList ≠ [] := by
  obtain ⟨d, hd, -⟩ := Filter.parse_eq_ok_iff.mp h
  intro hnil
  have hblank := Grammar.not_all_isBlank hd
  simp [hnil] at hblank

namespace SelectItem

/-- `name(filter=f)`, its spans left out. -/
private def filtered (name f : String) : List SelectItem :=
  let span := Span.point 0
  [.chain [.named ⟨name, span⟩ [⟨⟨"filter", span⟩, ⟨f, span⟩⟩]] span]

private theorem render_filtered (name f : String) :
    render (filtered name f) = name ++ "(filter=" ++ f ++ ")" := by
  apply String.toList_injective
  simp [render, filtered, listChars, moreChars, SelectItem.chars, SelectStep.listChars,
    SelectStep.laterChars, SelectStep.chars, RawParameter.chars]

private theorem filtered_writable {settings : SelectSettings} {name f : String} {filter : Filter}
    (hname : IsRun isNameChar name.toList) (hf : Filter.parse f settings.filter = .ok filter) :
    Writable settings.braces (filtered name f) := by
  have hclass : IsRun (nameClass settings.braces) name.toList := by
    refine ⟨hname.1, List.all_eq_true.mpr fun c hc => ?_⟩
    have hchar := List.all_eq_true.mp hname.2 c hc
    cases settings.braces <;> simp [nameClass, isBraceNameChar, hchar]
  have hfilter : IsRun isNameChar "filter".toList := by decide
  have hvalue : RawParameter.WellFormed ⟨⟨"filter", .point 0⟩, ⟨f, .point 0⟩⟩ :=
    ⟨hfilter, Filter.toList_ne_nil_of_parse hf, Filter.closesEven_of_parse hf⟩
  refine ⟨by simp [filtered], ⟨⟨⟨hclass, ?_⟩, trivial⟩, trivial⟩, ?_⟩
  · simpa using hvalue
  · simp [filtered, Distinct, allStepsList, allSteps, SelectStep.allStepsList, SelectStep.allSteps,
      SelectStep.parameterNames, SelectStep.parameters]

end SelectItem

namespace SelectTree

private theorem ofItems_single {settings : SelectSettings} {source : String} {name : Spanned String}
    {raw : RawParameter} {value : ParameterValue} {span : Span} (hdepth : 1 ≤ settings.maxDepth)
    (hread : raw.read settings source = .ok value) :
    ofItems [.chain [.named name [raw]] span] source settings =
      .ok [(name.value, .mk name.value [(raw.name.value, value)] none)] := by
  have hnone : ([⟨name, [raw]⟩] : LinkPath)[settings.maxDepth]? = none :=
    List.getElem?_eq_none hdepth
  have hpaths : SelectItem.paths settings.maxDepth (.chain [.named name [raw]] span) =
      .ok [[⟨name, [raw]⟩]] := by
    simp [SelectItem.paths, SelectStep.walk, SelectStep.paths, LinkPath.cross, LinkPath.followAll,
      LinkPath.checkLength, hnone]
  have hnode : Link.toNode settings source [name.value] ⟨name, [raw]⟩ =
      .ok (.mk name.value [(raw.name.value, value)] none) := by
    simp [Link.toNode, RawParameter.readAll, hread, Table.find?, Table.put]
  simp [ofItems, insertItems, hpaths, insertPaths, insertPath, meet, hnode, Table.find?, Table.put]

/-- A filter means the same inside a select as on its own. The scan for the end of a parameter value
stops exactly behind the text of a filter, whatever follows the parenthesis there, and a select of one
attribute with the filter for its parameter is read as this attribute with what the filter is read
as. -/
theorem parse_filter_parameter (settings : SelectSettings) (hdepth : 1 ≤ settings.maxDepth)
    {f : String} {filter : Filter} (hf : Filter.parse f settings.filter = .ok filter) :
    (∀ rest : String, Nesting.valueChars .outside 0 (f ++ ")" ++ rest).toList = f.toList) ∧
    ∀ name : String, IsRun isNameChar name.toList →
      Nesting.check (name ++ "(filter=" ++ f ++ ")") settings.maxDepth = .ok () →
        SelectTree.parse (name ++ "(filter=" ++ f ++ ")") settings =
          .ok [(name, .mk name [("filter", .filter filter)] none)] := by
  constructor
  · intro rest
    have hvalue := Nesting.valueChars_of_closesEven (Filter.closesEven_of_parse hf) rest.toList
    simpa using hvalue
  · intro name hname hcheck
    rw [← SelectItem.render_filtered] at hcheck ⊢
    have hitems := SelectItem.parse_render (SelectItem.filtered_writable hname hf) hcheck
    rw [SelectTree.parse, hitems]
    apply ofItems_single hdepth
    simp [RawParameter.read, reservedParameters, RawParameter.place, ParameterValue.parse, hf,
      ParameterValue.wrap]

theorem parse_filter_parameter_escaped :
    Filter.parse "(x=\"\\\")\" )" .initial = .ok ⟨[[⟨["x"], .equal, .single (.text "\")")⟩]]⟩ ∧
    Nesting.valueChars .outside 0 "(x=\"\\\")\" )).y(page=1)".toList = "(x=\"\\\")\" )".toList ∧
    SelectTree.parse "n(filter=(x=\"\\\")\" ))" ⟨true, .initial, 2⟩ =
      .ok [("n", .mk "n" [("filter", .filter ⟨[[⟨["x"], .equal, .single (.text "\")")⟩]]⟩)] none)] := by
  have hf : Filter.parse "(x=\"\\\")\" )" .initial =
      .ok ⟨[[⟨["x"], .equal, .single (.text "\")")⟩]]⟩ := by
    decide +kernel
  obtain ⟨hvalue, hselect⟩ := parse_filter_parameter ⟨true, .initial, 2⟩ (by decide) hf
  exact ⟨hf, hvalue ".y(page=1)", hselect "n" (by decide) (by decide)⟩

end SelectTree

end RequestQuery
