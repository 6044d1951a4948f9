import RequestQuery.Proofs.Filter.Relaxation
import RequestQuery.Proofs.Select.NestingLimit
import RequestQuery.Proofs.Select.Union

/-!
# Selects under settings that allow more

Braces and depth decide whether a text is a select, and the settings of filters what its parameters are
worth. Where more is allowed, a select that was read is read as before, and so is every parameter in it.
So relaxed settings give the same tree.
-/

namespace RequestQuery

/-- Braces stay allowed, filters are relaxed, and groups and paths may be as deep at least. -/
structure SelectSettings.Relaxes (settings settings' : SelectSettings) : Prop where
  braces : settings.braces = true → settings'.braces = true
  filter : settings.filter.Relaxes settings'.filter
  depth : settings.maxDepth ≤ settings'.maxDepth

section Braces

variable {braces braces' : Bool}

private theorem isRun_nameClass (h : braces = true → braces' = true) {cs : List Char}
    (hrun : IsRun (nameClass braces) cs) : IsRun (nameClass braces') cs := by
  refine ⟨hrun.1, List.all_eq_true.mpr fun c hc => ?_⟩
  have hclass := List.all_eq_true.mp hrun.2 c hc
  cases braces with
  | true => rwa [h rfl]
  | false =>
      have hname : isNameChar c = true := hclass
      cases braces' <;> simp [nameClass, isBraceNameChar, hname]

mutual
private theorem SelectItem.wellFormed_mono (h : braces = true → braces' = true) :
    ∀ item : SelectItem, item.WellFormed braces → item.WellFormed braces'
  | .chain (step :: _) _, hwell => ⟨step.wellFormed_mono h hwell.1, hwell.2⟩

private theorem SelectItem.wellFormedList_mono (h : braces = true → braces' = true) :
    ∀ items : List SelectItem,
      SelectItem.WellFormedList braces items → SelectItem.WellFormedList braces' items
  | [], _ => trivial
  | item :: rest, hwell =>
      ⟨item.wellFormed_mono h hwell.1, SelectItem.wellFormedList_mono h rest hwell.2⟩

private theorem SelectStep.wellFormed_mono (h : braces = true → braces' = true) :
    ∀ step : SelectStep, step.WellFormed braces → step.WellFormed braces'
  | .named _ _, hwell => ⟨isRun_nameClass h hwell.1, hwell.2⟩
  | .group members _ _, hwell => ⟨SelectItem.wellFormedList_mono h members hwell.1, hwell.2⟩
end

end Braces

variable {settings settings' : SelectSettings} {source : String}

theorem SelectItem.parse_mono (h : settings.Relaxes settings') {items : List SelectItem}
    (hparse : SelectItem.parse source settings = .ok items) :
    SelectItem.parse source settings' = .ok items := by
  obtain ⟨hwritable, htext, hplaced, hcheck⟩ := SelectItem.parse_eq_ok_iff.mp hparse
  apply SelectItem.parse_eq_ok_iff.mpr
  refine ⟨⟨hwritable.nonempty, ?_, hwritable.distinct⟩, htext, hplaced, ?_⟩
  · exact SelectItem.wellFormedList_mono h.braces items hwritable.wellFormed
  · exact Nesting.check_mono h.depth hcheck

theorem ParameterValue.parse_mono {settings settings' : FilterSettings}
    (h : settings.Relaxes settings') {name text : String} {value : ParameterValue}
    (hparse : ParameterValue.parse settings name text = .ok value) :
    ParameterValue.parse settings' name text = .ok value := by
  unfold ParameterValue.parse at hparse ⊢
  by_cases hname : name = "filter"
  · rw [if_pos hname] at hparse ⊢
    cases hfilter : Filter.parse text settings with
    | error error =>
        rw [hfilter] at hparse
        cases hparse
    | ok filter =>
        rw [hfilter] at hparse
        rw [Filter.parse_mono h hfilter, hparse]
  · rw [if_neg hname] at hparse ⊢
    exact hparse

theorem RawParameter.read_mono (h : settings.Relaxes settings') {raw : RawParameter}
    {value : ParameterValue} (hread : raw.read settings source = .ok value) :
    raw.read settings' source = .ok value := by
  unfold RawParameter.read at hread ⊢
  split at hread
  next => cases hread
  next hname =>
    rw [if_neg hname]
    split at hread <;> cases hread
    next hparse => rw [ParameterValue.parse_mono h.filter hparse]

theorem RawParameter.readAll_congr {parameters : List RawParameter}
    (h : ∀ raw ∈ parameters, raw.read settings' source = raw.read settings source)
    (path : List String) (table : Parameters) :
    readAll settings' source path parameters table = readAll settings source path parameters table := by
  induction parameters generalizing table with
  | nil => rfl
  | cons raw rest ih =>
      rw [List.forall_mem_cons] at h
      simp only [readAll, h.1, ih h.2]

namespace SelectTree

theorem insertPath_congr {path : LinkPath}
    (h : ∀ link ∈ path, ∀ raw ∈ link.parameters, raw.read settings' source = raw.read settings source)
    (above : List String) (tree : SelectTree) :
    insertPath settings' source above path tree = insertPath settings source above path tree := by
  induction path generalizing above tree with
  | nil => rfl
  | cons link rest ih =>
      rw [List.forall_mem_cons] at h
      have hnode := RawParameter.readAll_congr h.1
      cases rest with
      | nil => simp only [insertPath, meet, Link.toNode, hnode]
      | cons next rest =>
          have hrest := ih h.2
          rw [insertPath, insertPath]
          simp only [meet, Link.toNode, hnode, hrest]

theorem insertPaths_congr {paths : List LinkPath}
    (h : ∀ path ∈ paths, ∀ link ∈ path, ∀ raw ∈ link.parameters,
      raw.read settings' source = raw.read settings source) (tree : SelectTree) :
    insertPaths settings' source paths tree = insertPaths settings source paths tree := by
  induction paths generalizing tree with
  | nil => rfl
  | cons path paths ih =>
      rw [List.forall_mem_cons] at h
      simp only [insertPaths, insertPath_congr h.1, ih h.2]

theorem ofItems_mono (h : settings.Relaxes settings') {items : List SelectItem} {tree : SelectTree}
    (hitems : ofItems items source settings = .ok tree) : ofItems items source settings' = .ok tree := by
  obtain ⟨hgroups, hshort, hpaths⟩ := insertItems_eq_ok.mp hitems
  have hreadable := (insertPaths_empty.1.mp ⟨tree, hpaths⟩).1
  apply insertItems_eq_ok.mpr
  refine ⟨hgroups, fun path hpath => Nat.le_trans (hshort path hpath) h.depth, ?_⟩
  rw [← hpaths]
  apply insertPaths_congr
  intro path hpath link hlink raw hraw
  obtain ⟨hname, hvalue⟩ := (hreadable path hpath link hlink).accepted raw hraw
  obtain ⟨value, hsome⟩ := Option.isSome_iff_exists.mp hvalue
  have hread : raw.read settings source = .ok value := RawParameter.read_eq_ok.mpr ⟨hname, hsome⟩
  rw [hread, RawParameter.read_mono h hread]

theorem parse_mono (h : settings.Relaxes settings') {tree : SelectTree}
    (hparse : parse source settings = .ok tree) : parse source settings' = .ok tree := by
  unfold parse at hparse ⊢
  split at hparse
  next => cases hparse
  next items hitems =>
    rw [SelectItem.parse_mono h hitems]
    exact ofItems_mono h hparse

end SelectTree

/-- Settings that allow more read every accepted filter and select as before. A filter that is accepted
only once a token is bound has a comparison with that token. Any number of bindings together with a
higher limit is such a relaxation. -/
theorem relaxation_keeps_readings :
    (∀ settings settings' : FilterSettings, settings.Relaxes settings' →
      ∀ source filter, Filter.parse source settings = .ok filter →
        Filter.parse source settings' = .ok filter) ∧
    (∀ settings settings' : SelectSettings, settings.Relaxes settings' →
      ∀ source tree, SelectTree.parse source settings = .ok tree →
        SelectTree.parse source settings' = .ok tree) ∧
    (∀ (settings settings' : FilterSettings) (token : String) (operator : Operator),
      settings.bind token operator = .ok settings' →
      ∀ source filter, Filter.parse source settings' = .ok filter →
        (∀ filter', Filter.parse source settings ≠ .ok filter') →
          ∃ tree, Filter.parseTree source settings' = .ok tree ∧
            ∃ raw ∈ tree.leaves, raw.token.value = token ∧
              Slices source.toList raw.token.span token.toList) ∧
    ∀ (settings : FilterSettings) (bindings : List (String × Operator)) (operators : OperatorTable)
      (depth : Nat), settings.operators.bindAll bindings = .ok operators →
        settings.maxDepth ≤ depth → settings.Relaxes ⟨operators, depth⟩ := by
  refine ⟨?_, ?_, ?_, ?_⟩
  · intro settings settings' h source filter
    exact Filter.parse_mono h
  · intro settings settings' h source tree
    exact SelectTree.parse_mono h
  · intro settings settings' token operator hbind source filter
    exact Filter.exists_comparison_of_bind hbind
  · intro settings bindings operators depth hbind
    exact FilterSettings.relaxes_of_bindAll hbind

/-- The table with `==` next to `=`. -/
def doubledTable : OperatorTable := OperatorTable.initial ++ [("==", .equal)]

/-- The table with `<>` next to `<` and `>` too. -/
def unequalTable : OperatorTable := doubledTable ++ [("<>", .notEqual)]

theorem relaxation_keeps_readings_tokens :
    OperatorTable.initial.bindAll [("==", .equal), ("<>", .notEqual)] = .ok unequalTable ∧
    Filter.parse "a<null OR b=true" ⟨unequalTable, 70⟩ =
      .ok ⟨[[⟨["a"], .less, .single .null⟩], [⟨["b"], .equal, .single (.boolean true)⟩]]⟩ ∧
    (∃ tree, SelectTree.parse "a(filter=b<null)[c]" .initial = .ok tree ∧
      SelectTree.parse "a(filter=b<null)[c]" ⟨true, ⟨unequalTable, 70⟩, 65⟩ = .ok tree) ∧
    (∀ filter, Filter.parse "a<>null" ⟨doubledTable, 64⟩ ≠ .ok filter) ∧
    ∃ tree, Filter.parseTree "a<>null" ⟨unequalTable, 64⟩ = .ok tree ∧
      ∃ raw ∈ tree.leaves, raw.token.value = "<>" ∧
        Slices "a<>null".toList raw.token.span "<>".toList := by
  obtain ⟨hfilter, hselect, htoken, hbindings⟩ := relaxation_keeps_readings
  have hbind : OperatorTable.initial.bindAll [("==", .equal), ("<>", .notEqual)] =
      .ok unequalTable := by decide
  have hrelaxes := hbindings .initial _ _ 70 hbind (by decide)
  have hnot : ∀ filter, Filter.parse "a<>null" ⟨doubledTable, 64⟩ ≠ .ok filter := by
    have herror : (Filter.parse "a<>null" ⟨doubledTable, 64⟩).isOk = false := by decide +kernel
    intro filter hparse
    rw [hparse] at herror
    cases herror
  refine ⟨hbind, hfilter _ _ hrelaxes _ _ (by decide +kernel), ?_, hnot, ?_⟩
  · have hok : (SelectTree.parse "a(filter=b<null)[c]" .initial).isOk = true := by decide +kernel
    cases htree : SelectTree.parse "a(filter=b<null)[c]" .initial with
    | error error => simp [htree, Except.isOk, Except.toBool] at hok
    | ok tree =>
        have hlimits : SelectSettings.initial.Relaxes ⟨true, ⟨unequalTable, 70⟩, 65⟩ :=
          ⟨fun _ => rfl, hrelaxes, by decide⟩
        exact ⟨tree, rfl, hselect _ _ hlimits _ _ htree⟩
  · have hbound : FilterSettings.bind ⟨doubledTable, 64⟩ "<>" .notEqual = .ok ⟨unequalTable, 64⟩ := by
      decide
    have hparse : Filter.parse "a<>null" ⟨unequalTable, 64⟩ =
        .ok ⟨[[⟨["a"], .notEqual, .single .null⟩]]⟩ := by decide +kernel
    exact htoken _ _ _ _ hbound _ _ hparse hnot

end RequestQuery
