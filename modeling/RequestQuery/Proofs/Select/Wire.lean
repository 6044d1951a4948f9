import RequestQuery.Proofs.Filter.Wire
import RequestQuery.Proofs.Select.Absorption
import RequestQuery.Proofs.Select.Shape

/-!
# The wire form of select trees

In the object of a node the parameters and the children stand side by side, and the value of a parameter
does not say its kind. A tree can be read off all the same: no parameter is named `select`, the kind of a
value follows from its name, and the name of a node is its key.
-/

namespace RequestQuery

namespace ParameterValue

/-- The name whose values are of this kind; a raw value can have any other. -/
def kind? : ParameterValue → Option String
  | .filter _ => some "filter"
  | .order _ => some "order"
  | .limit _ => some "limit"
  | .page _ => some "page"
  | .id _ => some "id"
  | .search _ => some "search"
  | .raw _ => none

def filters : ParameterValue → List Filter
  | .filter f => [f]
  | _ => []

/-- A value that was read for a name, under some settings. -/
def ReadFor (name : String) (value : ParameterValue) : Prop :=
  ∃ settings text, FilterSettings.Obtained settings ∧ OfName settings name text value

theorem ReadFor.kind? {name : String} {value : ParameterValue} (h : value.ReadFor name) :
    value.kind? =
      if name ∈ ["filter", "order", "limit", "page", "id", "search"] then some name else none := by
  obtain ⟨settings, text, -, hname⟩ := h
  cases hname with
  | raw hother => rw [if_neg hother]; rfl
  | _ => rfl

theorem ReadFor.ranged {name : String} {f : Filter} (h : (ParameterValue.filter f).ReadFor name) :
    ∀ c ∈ f.comparisons, c.Ranged := by
  obtain ⟨settings, text, hsettings, hname⟩ := h
  cases hname with
  | filter hparse => exact Filter.ranged_of_parse hsettings hparse

theorem eq_of_toJson {name : String} {value value' : ParameterValue} (h : value.ReadFor name)
    (h' : value'.ReadFor name) (hplain : ∀ f ∈ value.filters, f.decimalFree = true)
    (hjson : value.toJson = value'.toJson) : value = value' := by
  have hkind : value.kind? = value'.kind? := h.kind?.trans h'.kind?.symm
  cases value with
  | filter f =>
      cases value' with
      | filter f' =>
          have hf : f.decimalFree = true := hplain f List.mem_cons_self
          rw [Filter.eq_of_toJson hf h.ranged h'.ranged hjson]
      | _ => simp [kind?] at hkind
  | order keys =>
      cases value' with
      | order keys' => rw [Order.toJson_injective hjson]
      | _ => simp [kind?] at hkind
  | limit l =>
      cases value' with
      | limit l' => rw [Limit.toJson_injective hjson]
      | _ => simp [kind?] at hkind
  | page n =>
      cases value' with
      | page n' => rw [Json.nat_injective hjson]
      | _ => simp [kind?] at hkind
  | id s =>
      cases value' with
      | id s' => rw [Json.string.inj hjson]
      | _ => simp [kind?] at hkind
  | search s =>
      cases value' with
      | search s' => rw [Json.string.inj hjson]
      | _ => simp [kind?] at hkind
  | raw s =>
      cases value' with
      | raw s' => rw [Json.string.inj hjson]
      | _ => simp [kind?] at hkind

theorem distinct_toJson (value : ParameterValue) : value.toJson.Distinct := by
  cases value with
  | filter f => exact f.distinct_toJson
  | order keys => exact Order.distinct_toJson keys
  | limit l => exact l.distinct_toJson
  | page n | id s | search s | raw s => trivial

end ParameterValue

namespace SelectNode

mutual
/-- The filters among the parameters of a node and of all below it. -/
def filters : SelectNode → List Filter
  | .mk _ parameters children =>
      (parameters.flatMap fun e => e.2.filters) ++ filtersChildren children

def filtersChildren : Option (List (String × SelectNode)) → List Filter
  | none => []
  | some entries => filtersEntries entries

def filtersEntries : List (String × SelectNode) → List Filter
  | [] => []
  | (_, node) :: rest => node.filters ++ filtersEntries rest
end

end SelectNode

def SelectTree.filters (tree : SelectTree) : List Filter := SelectNode.filtersEntries tree

theorem SelectTree.filters_eq (tree : SelectTree) :
    tree.filters = tree.flatMap fun e => e.2.filters := by
  unfold filters
  induction tree with
  | nil => rfl
  | cons e rest ih => rw [SelectNode.filtersEntries, List.flatMap_cons, ih]

theorem SelectNode.filters_eq (node : SelectNode) :
    node.filters =
      (node.parameters.flatMap fun e => e.2.filters) ++ SelectTree.filters node.childTable := by
  obtain ⟨name, parameters, children⟩ := node
  cases children <;> rfl

/-- Parameters with distinct names, none of them the key of the children, and values read for them. -/
structure SelectNode.Legible (node : SelectNode) : Prop where
  nodup : node.parameters.keys.Nodup
  free : "select" ∉ node.parameters.keys
  values : ∀ e ∈ node.parameters, e.2.ReadFor e.1

/-- Legible nodes under their own names at every level, no two of them under one. -/
structure SelectTree.Legible (tree : SelectTree) : Prop where
  nodup : ∀ above, (tree.level above).keys.Nodup
  name : ∀ above key node, (tree.level above).find? key = some node → node.name = key
  node : ∀ above key node, (tree.level above).find? key = some node → node.Legible

theorem SelectTree.Legible.childTable {tree : SelectTree} (h : tree.Legible) {key : String}
    {node : SelectNode} (hnode : tree.find? key = some node) :
    SelectTree.Legible node.childTable := by
  have hlevel : ∀ above, tree.level (key :: above) = SelectTree.level node.childTable above := by
    intro above
    rw [level, entry, hnode, Option.getD_some]
  constructor
  · exact fun above => hlevel above ▸ h.nodup (key :: above)
  · exact fun above => hlevel above ▸ h.name (key :: above)
  · exact fun above => hlevel above ▸ h.node (key :: above)

theorem SelectTree.Legible.mem {tree : SelectTree} (h : tree.Legible) {e : String × SelectNode}
    (he : e ∈ tree) : e.2.name = e.1 ∧ e.2.Legible ∧ SelectTree.Legible e.2.childTable := by
  have hfind := Table.find?_eq_some_of_mem (h.nodup []) he
  exact ⟨h.name [] _ _ hfind, h.node [] _ _ hfind, h.childTable hfind⟩

theorem SelectTree.toJson_eq (tree : SelectTree) :
    tree.toJson = .object (tree.map fun e => (e.1, e.2.toJson)) := by
  have hentries : SelectNode.entriesJson tree = tree.map fun e => (e.1, e.2.toJson) := by
    induction tree with
    | nil => rfl
    | cons e rest ih => rw [SelectNode.entriesJson, List.map_cons, ih]
  rw [toJson, hentries]

namespace SelectNode

theorem Legible.toJson_eq {node : SelectNode} (h : node.Legible) :
    node.toJson = .object ((node.parameters.map fun e => (e.1, e.2.toJson)) ++
      ((node.children.map SelectTree.toJson).map ("select", ·)).toList) := by
  obtain ⟨name, parameters, children⟩ := node
  have hmembers : Table.putAll [] (parameters.map fun e => (e.1, e.2.toJson)) =
      parameters.map fun e => (e.1, e.2.toJson) := by
    apply Table.putAll_of_nodup
    rw [List.nil_append, Table.keys_map]
    exact h.nodup
  rw [toJson]
  simp only [hmembers]
  cases children with
  | none => simp [childrenJson, SelectNode.children, SelectNode.parameters]
  | some entries =>
      have hfree : "select" ∉ Table.keys (parameters.map fun e => (e.1, e.2.toJson)) := by
        rw [Table.keys_map]
        exact h.free
      rw [childrenJson, Table.put_of_not_mem _ hfree]
      rfl

theorem Legible.get?_select {node : SelectNode} (h : node.Legible) :
    node.toJson.get? "select" = node.children.map SelectTree.toJson := by
  have hfree := Table.find?_eq_none_iff.mpr h.free
  rw [h.toJson_eq, Json.get?, Table.find?_append, Table.find?_map, hfree]
  cases node.children <;> rfl

theorem Legible.get?_parameter {node : SelectNode} (h : node.Legible) {name : String}
    (hname : name ≠ "select") :
    node.toJson.get? name = (node.parameters.find? name).map ParameterValue.toJson := by
  rw [h.toJson_eq, Json.get?, Table.find?_append, Table.find?_map]
  cases node.children with
  | none => simp [Table.find?]
  | some table => simp [Table.find?, Ne.symm hname]

theorem Legible.nodup_keys {node : SelectNode} (h : node.Legible) :
    (Table.keys ((node.parameters.map fun e => (e.1, e.2.toJson)) ++
      ((node.children.map SelectTree.toJson).map ("select", ·)).toList)).Nodup := by
  rw [Table.keys, List.map_append, ← Table.keys, Table.keys_map, List.nodup_append]
  refine ⟨h.nodup, by cases node.children <;> simp, ?_⟩
  rintro name hname _ hselect rfl
  cases hchildren : node.children with
  | none => simp [hchildren] at hselect
  | some table =>
      simp only [hchildren, Option.map_some, Option.toList_some, List.map_cons, List.map_nil,
        List.mem_singleton] at hselect
      exact h.free (hselect ▸ hname)

end SelectNode

private theorem SelectTree.eq_of_nodes {tree tree' : SelectTree} (h : tree.Legible)
    (h' : tree'.Legible) (hjson : tree.toJson = tree'.toJson)
    (hnodes : ∀ e ∈ tree, ∀ node' : SelectNode, node'.Legible →
      SelectTree.Legible node'.childTable → e.2.name = node'.name →
        e.2.toJson = node'.toJson → e.2 = node') : tree = tree' := by
  rw [toJson_eq, toJson_eq] at hjson
  refine eq_of_map_eq (Json.object.inj hjson) fun e he e' he' hmember => ?_
  obtain ⟨hkey, hvalue⟩ := Prod.mk.inj hmember
  obtain ⟨hname, -, -⟩ := h.mem he
  obtain ⟨hname', hnode', hbelow'⟩ := h'.mem he'
  have hnode := hnodes e he e'.2 hnode' hbelow' (by rw [hname, hname', hkey]) hvalue
  exact Prod.ext hkey hnode

theorem SelectNode.eq_of_toJson {node node' : SelectNode} (h : node.Legible) (h' : node'.Legible)
    (hbelow : SelectTree.Legible node.childTable) (hbelow' : SelectTree.Legible node'.childTable)
    (hplain : ∀ f ∈ node.filters, f.decimalFree = true) (hname : node.name = node'.name)
    (hjson : node.toJson = node'.toJson) : node = node' := by
  induction node using inductionOn generalizing node' with
  | step node ih =>
      have hselect : node.children.map SelectTree.toJson = node'.children.map SelectTree.toJson := by
        rw [← h.get?_select, ← h'.get?_select, hjson]
      rw [filters_eq, List.forall_mem_append, SelectTree.filters_eq] at hplain
      have hparameters : node.parameters = node'.parameters := by
        rw [h.toJson_eq, h'.toJson_eq, hselect] at hjson
        have hmembers := List.append_cancel_right (Json.object.inj hjson)
        refine eq_of_map_eq hmembers fun e he e' he' hmember => ?_
        obtain ⟨hkey, hvalue⟩ := Prod.mk.inj hmember
        have hfilters : ∀ f ∈ e.2.filters, f.decimalFree = true := fun f hf =>
          hplain.1 f (List.mem_flatMap_of_mem he hf)
        exact Prod.ext hkey
          (ParameterValue.eq_of_toJson (h.values e he) (hkey ▸ h'.values e' he') hfilters hvalue)
      have hchildren : node.children = node'.children := by
        cases htable : node.children with
        | none =>
            rw [htable, Option.map_none, eq_comm, Option.map_eq_none_iff] at hselect
            exact hselect.symm
        | some table =>
            rw [htable, Option.map_some, eq_comm, Option.map_eq_some_iff] at hselect
            obtain ⟨table', htable', hjson'⟩ := hselect
            rw [childTable, htable, Option.getD_some] at hbelow ih hplain
            rw [childTable, htable', Option.getD_some] at hbelow'
            rw [htable', SelectTree.eq_of_nodes hbelow hbelow' hjson'.symm]
            intro e he node' hnode' hunder' hname' hjson'
            obtain ⟨-, hnode, hunder⟩ := hbelow.mem he
            refine ih e he hnode hnode' hunder hunder' (fun f hf => ?_) hname' hjson'
            exact hplain.2 f (List.mem_flatMap_of_mem he hf)
      obtain ⟨name, parameters, children⟩ := node
      obtain ⟨name', parameters', children'⟩ := node'
      cases hname
      cases hparameters
      cases hchildren
      rfl

theorem SelectTree.eq_of_toJson {tree tree' : SelectTree} (h : tree.Legible) (h' : tree'.Legible)
    (hplain : ∀ f ∈ tree.filters, f.decimalFree = true) (hjson : tree.toJson = tree'.toJson) :
    tree = tree' := by
  rw [filters_eq] at hplain
  refine eq_of_nodes h h' hjson fun e he node' hnode' hbelow' hname hvalue => ?_
  obtain ⟨-, hnode, hbelow⟩ := h.mem he
  refine SelectNode.eq_of_toJson hnode hnode' hbelow hbelow' (fun f hf => ?_) hname hvalue
  exact hplain f (List.mem_flatMap_of_mem he hf)

private theorem SelectTree.distinct_of_nodes {tree : SelectTree} (h : tree.Legible)
    (hnodes : ∀ e ∈ tree, e.2.toJson.Distinct) : tree.toJson.Distinct := by
  rw [toJson_eq, Json.distinct_object, Table.keys_map, List.forall_mem_map]
  exact ⟨h.nodup [], hnodes⟩

theorem SelectNode.distinct_toJson {node : SelectNode} (h : node.Legible)
    (hbelow : SelectTree.Legible node.childTable) : node.toJson.Distinct := by
  induction node using inductionOn with
  | step node ih =>
      rw [h.toJson_eq, Json.distinct_object, List.forall_mem_append, List.forall_mem_map]
      refine ⟨h.nodup_keys, fun e _ => e.2.distinct_toJson, ?_⟩
      cases hchildren : node.children with
      | none => simp
      | some table =>
          rw [childTable, hchildren, Option.getD_some] at hbelow ih
          rw [Option.map_some, Option.map_some, Option.toList_some, List.forall_mem_singleton]
          refine SelectTree.distinct_of_nodes hbelow fun e he => ?_
          obtain ⟨-, hnode, hunder⟩ := hbelow.mem he
          exact ih e he hnode hunder

theorem SelectTree.distinct_toJson {tree : SelectTree} (h : tree.Legible) :
    tree.toJson.Distinct := by
  refine distinct_of_nodes h fun e he => ?_
  obtain ⟨-, hnode, hbelow⟩ := h.mem he
  exact SelectNode.distinct_toJson hnode hbelow

/-- A tree that was read is legible, and so is every node in it. -/
theorem SelectTree.legible_of_parse {settings : SelectSettings} (hs : settings.filter.Obtained)
    {source : String} {tree : SelectTree} (h : parse source settings = .ok tree) :
    tree.Legible := by
  unfold parse at h
  split at h
  next => cases h
  next items _ =>
    have hunites := unites_of_ofItems h
    have hreadable := (insertPaths_empty.1.mp ⟨tree, (insertItems_eq_ok.mp h).2.2⟩).1
    refine ⟨hunites.nodup, hunites.name, fun above key node hnode => ?_⟩
    rcases hunites.exists_table hnode with hnil | ⟨front, link, rest, hpath, -, -, htable⟩
    · constructor <;> simp [hnil, Table.keys]
    · have hread : ∀ e ∈ node.parameters, e.1 ∉ reservedParameters ∧ e.2.ReadFor e.1 := by
        intro e he
        rw [htable] at he
        obtain ⟨raw, hraw, hname, hvalue⟩ := RawParameter.exists_of_mem_table he
        have haccepted := (hreadable _ hpath link (by simp)).accepted raw hraw
        have hparse := hname ▸ RawParameter.parse_of_value? hvalue
        exact ⟨hname ▸ haccepted.1, _, _, hs, ParameterValue.ofName_of_parse hparse⟩
      refine ⟨htable ▸ link.nodup_keys_table, ?_, fun e he => (hread e he).2⟩
      intro hmem
      obtain ⟨e, he, hselect⟩ := List.mem_map.mp hmem
      apply (hread e he).1
      simp [hselect, reservedParameters]

theorem SelectTree.Legible.holds {tree : SelectTree} (h : tree.Legible) {path : List String}
    {node : SelectNode} (hnode : tree.Holds path node) : node.Legible := by
  obtain ⟨above, key, -, hfind⟩ := hnode.exists_level h.nodup
  exact h.node above key node hfind

end RequestQuery
