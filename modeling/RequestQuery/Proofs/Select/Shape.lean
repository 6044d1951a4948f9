import RequestQuery.Proofs.Select.Faults
import RequestQuery.Proofs.Select.Union

/-!
# The shape of select trees

What every tree that was read looks like, node by node. The tree is the union of the paths of its items,
so its names and parameters are those of attributes as they were written.
-/

namespace RequestQuery

/-- The name of an attribute and those of its parameters are spelled as the grammar has it. -/
structure Link.WellFormed (braces : Bool) (link : Link) : Prop where
  name : IsRun (nameClass braces) link.name.value.toList
  parameters : ∀ p ∈ link.parameters, p.WellFormed

/-- Braces are for the first attribute alone. -/
def LinkPath.WellFormed (braces : Bool) : LinkPath → Prop
  | [] => False
  | link :: rest => link.WellFormed braces ∧ ∀ later ∈ rest, later.WellFormed false

namespace LinkPath

variable {braces : Bool}

private theorem WellFormed.append {front tail : LinkPath} (hfront : WellFormed braces front)
    (htail : ∀ link ∈ tail, link.WellFormed false) : WellFormed braces (front ++ tail) := by
  cases front with
  | nil => exact hfront.elim
  | cons link rest => exact ⟨hfront.1, List.forall_mem_append.mpr ⟨hfront.2, htail⟩⟩

private theorem WellFormed.forall_mem {path : LinkPath} (h : WellFormed false path) :
    ∀ link ∈ path, link.WellFormed false := by
  cases path with
  | nil => exact h.elim
  | cons link rest => exact List.forall_mem_cons.mpr h

/-- An attribute has braces only if nothing stands before it. -/
private theorem WellFormed.link {front rest : LinkPath} {link : Link}
    (h : WellFormed braces (front ++ link :: rest)) :
    link.WellFormed (braces && front.isEmpty) := by
  cases front with
  | nil => simpa using h.1
  | cons first front => simpa using h.2 link (by simp)

private theorem addParameters_forall {parameters : List RawParameter}
    (hparameters : ∀ p ∈ parameters, p.WellFormed) {path : LinkPath}
    (h : ∀ link ∈ path, link.WellFormed braces) :
    ∀ link ∈ addParameters parameters path, link.WellFormed braces := by
  fun_induction addParameters parameters path with
  | case1 => exact h
  | case2 link =>
      rw [List.forall_mem_singleton] at h ⊢
      exact ⟨h.name, List.forall_mem_append.mpr ⟨h.parameters, hparameters⟩⟩
  | case3 link rest _ ih =>
      rw [List.forall_mem_cons] at h ⊢
      exact ⟨h.1, ih h.2⟩

private theorem WellFormed.addParameters {parameters : List RawParameter}
    (hparameters : ∀ p ∈ parameters, p.WellFormed) {path : LinkPath} (h : WellFormed braces path) :
    WellFormed braces (LinkPath.addParameters parameters path) := by
  match path with
  | [] => exact h
  | [link] =>
      have hlink : ∀ l ∈ [link], l.WellFormed braces := List.forall_mem_singleton.mpr h.1
      have hadded := addParameters_forall hparameters hlink
      exact ⟨hadded _ List.mem_cons_self, by simp⟩
  | link :: next :: rest => exact ⟨h.1, addParameters_forall hparameters h.2⟩

end LinkPath

mutual
theorem SelectItem.wellFormed_described : ∀ (braces : Bool) (item : SelectItem),
    item.WellFormed braces → ∀ path ∈ item.described, LinkPath.WellFormed braces path
  | braces, .chain (step :: rest) _, h => by
      intro path hpath
      obtain ⟨front, hfront, tail, htail, rfl⟩ := LinkPath.mem_joinAll.mp hpath
      have hstep := SelectStep.wellFormed_described braces step h.1 front hfront
      exact hstep.append (SelectStep.wellFormed_product rest h.2 tail htail)

theorem SelectItem.wellFormed_describedList : ∀ (braces : Bool) (items : List SelectItem),
    SelectItem.WellFormedList braces items →
      ∀ path ∈ SelectItem.describedList items, LinkPath.WellFormed braces path
  | _, [], _ => by simp [SelectItem.describedList]
  | braces, item :: rest, h => by
      rw [SelectItem.describedList, List.forall_mem_append]
      exact ⟨SelectItem.wellFormed_described braces item h.1,
        SelectItem.wellFormed_describedList braces rest h.2⟩

theorem SelectStep.wellFormed_described : ∀ (braces : Bool) (step : SelectStep),
    step.WellFormed braces → ∀ path ∈ step.described, LinkPath.WellFormed braces path
  | _, .named name parameters, h => by
      rw [SelectStep.described, List.forall_mem_singleton]
      exact ⟨⟨h.1, h.2⟩, by simp⟩
  | braces, .group members parameters _, h => by
      rw [SelectStep.described, List.forall_mem_map]
      intro path hpath
      exact (SelectItem.wellFormed_describedList braces members h.1 path hpath).addParameters h.2

theorem SelectStep.wellFormed_product : ∀ steps : List SelectStep,
    SelectStep.WellFormedLater steps →
      ∀ path ∈ SelectStep.product steps, ∀ link ∈ path, link.WellFormed false
  | [], _ => by simp [SelectStep.product]
  | step :: rest, h => by
      intro path hpath
      obtain ⟨front, hfront, tail, htail, rfl⟩ := LinkPath.mem_joinAll.mp hpath
      have hstep := SelectStep.wellFormed_described false step h.1 front hfront
      exact List.forall_mem_append.mpr
        ⟨hstep.forall_mem, SelectStep.wellFormed_product rest h.2 tail htail⟩
end

/-- The value that the rule for a name makes of a text. Each name has a kind of its own, and all names
without a rule have the text itself. -/
inductive ParameterValue.OfName (settings : FilterSettings) :
    String → String → ParameterValue → Prop where
  | filter {text : String} {f : Filter} :
      Filter.parse text settings = .ok f → OfName settings "filter" text (.filter f)
  | order {text : String} {keys : Order} :
      Order.parse text = .ok keys → OfName settings "order" text (.order keys)
  | limit {text : String} {l : Limit} :
      Limit.parse text = .ok l → (∀ n, l = .count n → 1 ≤ n ∧ n ≤ Nat.pow 2 53 - 1) →
        OfName settings "limit" text (.limit l)
  | page {text : String} {n : Nat} :
      Page.parse text = .ok n → 1 ≤ n ∧ n ≤ Nat.pow 2 53 - 1 → OfName settings "page" text (.page n)
  | id {text : String} : OfName settings "id" text (.id text)
  | search {text : String} : OfName settings "search" text (.search text)
  | raw {name text : String} : name ∉ ["filter", "order", "limit", "page", "id", "search"] →
      OfName settings name text (.raw text)

theorem PagingProperty.check_eq_ok {property : PagingProperty} {value : Option Int} {n : Nat}
    (h : property.check value = .ok n) : 1 ≤ n ∧ n ≤ Nat.pow 2 53 - 1 := by
  have hmax : maxSafeInteger = Nat.pow 2 53 - 1 := rfl
  unfold PagingProperty.check positive at h
  split at h <;> cases h
  next hpositive =>
    split at hpositive
    next => cases hpositive
    next =>
      split at hpositive
      next => cases hpositive
      next =>
        split at hpositive <;> cases hpositive
        omega

private theorem Limit.count_of_parse {text : String} {n : Nat}
    (h : Limit.parse text = .ok (.count n)) : 1 ≤ n ∧ n ≤ Nat.pow 2 53 - 1 := by
  unfold Limit.parse Limit.ofInteger at h
  split at h
  next => cases h
  next =>
    split at h <;> cases h
    next hcheck => exact PagingProperty.check_eq_ok hcheck

namespace ParameterValue

private theorem wrap_eq_ok {α : Type} {make : α → ParameterValue} {outcome : Except QueryError α}
    {value : ParameterValue} (h : wrap make outcome = .ok value) :
    ∃ a, outcome = .ok a ∧ value = make a := by
  cases outcome <;> cases h
  exact ⟨_, rfl, rfl⟩

theorem ofName_of_parse {settings : FilterSettings} {name text : String} {value : ParameterValue}
    (h : parse settings name text = .ok value) : OfName settings name text value := by
  unfold parse at h
  split at h
  next hname =>
    obtain ⟨f, hf, rfl⟩ := wrap_eq_ok h
    exact hname ▸ .filter hf
  next hfilter =>
    split at h
    next hname =>
      obtain ⟨keys, hkeys, rfl⟩ := wrap_eq_ok h
      exact hname ▸ .order hkeys
    next horder =>
      split at h
      next hname =>
        obtain ⟨l, hl, rfl⟩ := wrap_eq_ok h
        refine hname ▸ .limit hl fun n hn => ?_
        exact Limit.count_of_parse (hn ▸ hl)
      next hlimit =>
        split at h
        next hname =>
          obtain ⟨n, hn, rfl⟩ := wrap_eq_ok h
          exact hname ▸ .page hn (PagingProperty.check_eq_ok hn)
        next hpage =>
          split at h
          next hname =>
            cases h
            exact hname ▸ .id
          next hid =>
            split at h <;> cases h
            next hname => exact hname ▸ .search
            next hsearch =>
              exact .raw (by simp [hfilter, horder, hlimit, hpage, hid, hsearch])

end ParameterValue

namespace RawParameter

private theorem exists_of_find?_addAll {settings : SelectSettings} {table : Parameters}
    {parameters : List RawParameter} {name : String} {value : ParameterValue}
    (h : (addAll settings table parameters).find? name = some value) :
    table.find? name = some value ∨
      ∃ raw ∈ parameters, raw.name.value = name ∧ raw.value? settings = some value := by
  fun_induction addAll settings table parameters with
  | case1 => exact .inl h
  | case2 table raw rest _ ih | case3 table raw rest _ _ _ ih =>
      refine (ih h).imp_right ?_
      rintro ⟨other, hother, hread⟩
      exact ⟨other, List.mem_cons_of_mem _ hother, hread⟩
  | case4 table raw rest given hgiven _ ih =>
      rcases ih h with hput | ⟨other, hother, hread⟩
      · rw [Table.find?_put] at hput
        by_cases hname : name = raw.name.value
        · rw [if_pos hname] at hput
          exact .inr ⟨raw, List.mem_cons_self, hname.symm, hgiven.trans hput⟩
        · rw [if_neg hname] at hput
          exact .inl hput
      · exact .inr ⟨other, List.mem_cons_of_mem _ hother, hread⟩

theorem parse_of_value? {settings : SelectSettings} {raw : RawParameter} {value : ParameterValue}
    (h : raw.value? settings = some value) :
    ParameterValue.parse settings.filter raw.name.value raw.value.value = .ok value := by
  unfold value? at h
  cases hparse : ParameterValue.parse settings.filter raw.name.value raw.value.value with
  | ok given =>
      rw [hparse] at h
      cases h
      rfl
  | error error =>
      rw [hparse] at h
      cases h

theorem exists_of_mem_table {settings : SelectSettings} {link : Link} {name : String}
    {value : ParameterValue} (h : (name, value) ∈ link.table settings) :
    ∃ raw ∈ link.parameters, raw.name.value = name ∧ raw.value? settings = some value := by
  have hfind := Table.find?_eq_some_of_mem link.nodup_keys_table h
  exact (exists_of_find?_addAll hfind).resolve_left nofun

end RawParameter

/-- A node of a tree with the keys on the way to it. -/
inductive SelectTree.Holds (tree : SelectTree) : List String → SelectNode → Prop where
  | root {key : String} {node : SelectNode} : (key, node) ∈ tree → Holds tree [key] node
  | child {path : List String} {parent node : SelectNode} {table : SelectTree} {key : String} :
      Holds tree path parent → parent.children = some table → (key, node) ∈ table →
        Holds tree (path ++ [key]) node

/-- A parameter of the node at `path`, read from one that the select gives to that attribute. -/
structure SelectItem.Gives (items : List SelectItem) (source : String) (settings : SelectSettings)
    (path : List String) (name : String) (value : ParameterValue) : Prop where
  letters : IsRun isNameChar name.toList
  allowed : name ≠ "select" ∧ name ≠ "aggregate"
  read : ∃ front link rest, front ++ link :: rest ∈ SelectItem.describedList items ∧
    LinkPath.names (front ++ [link]) = path ∧ ∃ raw ∈ link.parameters, raw.Exact source.toList ∧
      raw.name.value = name ∧ ParameterValue.OfName settings.filter name raw.value.value value

/-- What a node at `path` looks like. -/
structure SelectNode.Shaped (items : List SelectItem) (source : String) (settings : SelectSettings)
    (path : List String) (node : SelectNode) : Prop where
  key : path.getLast? = some node.name
  /-- Braces may stand in names at the root, if at all. -/
  letters : IsRun (nameClass (settings.braces && path.length == 1)) node.name.toList
  short : path.length ≤ settings.maxDepth
  children : ∀ table, node.children = some table → table ≠ [] ∧ table.keys.Nodup
  distinct : node.parameters.keys.Nodup
  parameters : ∀ name value, (name, value) ∈ node.parameters →
    SelectItem.Gives items source settings path name value

namespace SelectTree

theorem level_append_singleton {tree : SelectTree} {above : List String} {name : String}
    {node : SelectNode} (h : (tree.level above).find? name = some node) :
    tree.level (above ++ [name]) = node.childTable := by
  induction above generalizing tree with
  | nil => simp only [List.nil_append, level, entry, show tree.find? name = some node from h,
      Option.getD_some]
  | cons first above ih => exact ih h

/-- Keys lead to one node each if no level has one twice. -/
theorem Holds.exists_level {tree : SelectTree} (hnodup : ∀ above, (tree.level above).keys.Nodup)
    {path : List String} {node : SelectNode} (h : tree.Holds path node) :
    ∃ above key, path = above ++ [key] ∧ (tree.level above).find? key = some node := by
  induction h with
  | root hmem => exact ⟨[], _, rfl, Table.find?_eq_some_of_mem (hnodup []) hmem⟩
  | @child _ parent _ table key _ hchildren hmem ih =>
      obtain ⟨above, name, rfl, hparent⟩ := ih
      have hlevel : tree.level (above ++ [name]) = table := by
        rw [level_append_singleton hparent, SelectNode.childTable, hchildren, Option.getD_some]
      have htable := hnodup (above ++ [name])
      refine ⟨above ++ [name], key, rfl, ?_⟩
      rw [hlevel] at htable ⊢
      exact Table.find?_eq_some_of_mem htable hmem

section Union

variable {settings : SelectSettings} {source : String} {items : List SelectItem} {tree : SelectTree}

theorem unites_of_ofItems (h : ofItems items source settings = .ok tree) :
    tree.Unites settings (SelectItem.describedList items) := by
  have hpaths := (insertItems_eq_ok.mp h).2.2
  have hreadable := (insertPaths_empty.1.mp ⟨tree, hpaths⟩).1
  exact unites_of_summarizes hreadable (insertPaths_empty.2 tree hpaths)

theorem Unites.children_ne_nil {paths : List LinkPath} (h : tree.Unites settings paths)
    {above : List String} {name : String} {node : SelectNode} {table : SelectTree}
    (hnode : (tree.level above).find? name = some node) (htable : node.children = some table) :
    table ≠ [] ∧ table.keys.Nodup := by
  have hlevel : tree.level (above ++ [name]) = table := by
    rw [level_append_singleton hnode, SelectNode.childTable, htable, Option.getD_some]
  refine ⟨?_, hlevel ▸ h.nodup (above ++ [name])⟩
  have hsome : node.children.isSome = true := by rw [htable]; rfl
  obtain ⟨⟨link, rest⟩, hplace, rfl, hrest⟩ := (h.children above name node hnode).mp hsome
  obtain ⟨front, hpath, rfl⟩ := LinkPath.mem_below.mp hplace
  obtain ⟨next, rest, rfl⟩ := List.exists_cons_of_ne_nil hrest
  have hkey : next.name.value ∈ (tree.level (LinkPath.names front ++ [link.name.value])).keys := by
    apply (h.nodes _ _).mpr
    exact ⟨_, hpath, LinkPath.names rest, by simp [LinkPath.names]⟩
  rintro rfl
  rw [hlevel] at hkey
  cases hkey

/-- The paths have an attribute in the place of each node. -/
theorem Unites.exists_link {paths : List LinkPath} (h : tree.Unites settings paths)
    {above : List String} {key : String} {node : SelectNode}
    (hnode : (tree.level above).find? key = some node) :
    ∃ front link rest, front ++ link :: rest ∈ paths ∧ LinkPath.names front = above ∧
      link.name.value = key := by
  have hkey : key ∈ (tree.level above).keys := by
    apply Table.has_eq_true_iff.mp
    simp [Table.has, hnode]
  rw [h.order, List.mem_eraseDups, List.mem_map] at hkey
  obtain ⟨⟨link, rest⟩, hplace, rfl⟩ := hkey
  obtain ⟨front, hpath, rfl⟩ := LinkPath.mem_below.mp hplace
  exact ⟨front, link, rest, hpath, rfl, rfl⟩

theorem Unites.exists_table {paths : List LinkPath} (h : tree.Unites settings paths)
    {above : List String} {key : String} {node : SelectNode}
    (hnode : (tree.level above).find? key = some node) :
    node.parameters = [] ∨ ∃ front link rest, front ++ link :: rest ∈ paths ∧
      LinkPath.names front = above ∧ link.name.value = key ∧
        node.parameters = link.table settings := by
  have hparameters := h.parameters above key node hnode
  cases hfind : (LinkPath.below above paths).find? fun place =>
      place.1.name.value == key && !place.1.parameters.isEmpty with
  | none =>
      rw [hfind] at hparameters
      exact .inl hparameters
  | some place =>
      rw [hfind] at hparameters
      obtain ⟨front, hpath, hfront⟩ := LinkPath.mem_below.mp (List.mem_of_find?_eq_some hfind)
      have hname := List.find?_some hfind
      simp only [Bool.and_eq_true, beq_iff_eq] at hname
      exact .inr ⟨front, place.1, place.2, hpath, hfront, hname.1, hparameters⟩

end Union

/-- Attributes that are spelled by the grammar, stand in the text and can be read make nodes of the
shape. -/
theorem Unites.shaped {items : List SelectItem} {source : String} {settings : SelectSettings}
    {tree : SelectTree} (h : tree.Unites settings (SelectItem.describedList items))
    (hwell : ∀ path ∈ SelectItem.describedList items, LinkPath.WellFormed settings.braces path)
    (hshort : ∀ path ∈ SelectItem.describedList items, path.length ≤ settings.maxDepth)
    (hexact : ∀ path ∈ SelectItem.describedList items, ∀ link ∈ path, link.Exact source.toList)
    (hreadable : ∀ path ∈ SelectItem.describedList items, ∀ link ∈ path, link.Readable settings)
    {path : List String} {node : SelectNode} (hnode : tree.Holds path node) :
    node.Shaped items source settings path := by
  obtain ⟨above, key, rfl, hfind⟩ := hnode.exists_level h.nodup
  have hname : node.name = key := h.name above key node hfind
  have htable := h.exists_table hfind
  obtain ⟨front, link, rest, hpath, rfl, rfl⟩ := h.exists_link hfind
  have hlength : (LinkPath.names front ++ [link.name.value]).length = front.length + 1 := by
    simp [LinkPath.names]
  refine ⟨by simp [hname], ?_, ?_, fun table hchildren => h.children_ne_nil hfind hchildren, ?_, ?_⟩
  · have hletters := (hwell _ hpath).link.name
    have hroot : (front.length + 1 == 1) = front.isEmpty := by cases front <;> rfl
    rwa [hlength, hroot, hname]
  · have hle := hshort _ hpath
    simp only [List.length_append, List.length_cons] at hle
    omega
  · rcases htable with hnil | ⟨-, link', -, -, -, -, hparameters⟩
    · simp [hnil, Table.keys]
    · rw [hparameters]
      exact link'.nodup_keys_table
  · intro name value hmem
    rcases htable with hnil | ⟨front', link', rest', hpath', hfront, hkey, hparameters⟩
    · rw [hnil] at hmem
      cases hmem
    · rw [hparameters] at hmem
      obtain ⟨raw, hraw, rfl, hvalue⟩ := RawParameter.exists_of_mem_table hmem
      have hlink : link' ∈ front' ++ link' :: rest' := by simp
      have haccepted := (hreadable _ hpath' _ hlink).accepted raw hraw
      refine ⟨((hwell _ hpath').link.parameters raw hraw).name, ?_, front', link', rest', hpath', ?_,
        raw, hraw, (hexact _ hpath' _ hlink).parameters raw hraw, rfl, ?_⟩
      · simpa [reservedParameters] using haccepted.1
      · rw [← hfront, ← hkey]
        simp [LinkPath.names]
      · exact ParameterValue.ofName_of_parse (RawParameter.parse_of_value? hvalue)

/-- Every node of a tree that was read has the shape that its place and its names ask for. -/
theorem parse_shaped {source : String} {settings : SelectSettings} {tree : SelectTree}
    (h : parse source settings = .ok tree) :
    ∃ items, SelectItem.parse source settings = .ok items ∧ tree ≠ [] ∧ tree.keys.Nodup ∧
      ∀ path node, tree.Holds path node → node.Shaped items source settings path := by
  unfold parse at h
  split at h
  next => cases h
  next items hitems =>
    have hunites := unites_of_ofItems h
    obtain ⟨hgroups, hshort, hpaths⟩ := insertItems_eq_ok.mp h
    have hreadable := (insertPaths_empty.1.mp ⟨tree, hpaths⟩).1
    obtain ⟨hwritable, -, -, -⟩ := SelectItem.parse_eq_ok_iff.mp hitems
    have hwell := SelectItem.wellFormed_describedList _ items hwritable.wellFormed
    have hsteps := (SelectItem.exactList_of_selectText (SelectItem.parse_eq_ok.mp hitems).2.1).2
    have hexact := SelectItem.pathsList_exact settings.maxDepth items hsteps
    rw [(SelectItem.pathsList_eq_ok items _).mpr ⟨hgroups, hshort, rfl⟩] at hexact
    refine ⟨items, hitems, ?_, hunites.nodup [], fun path node hnode => ?_⟩
    · obtain ⟨path, hpath⟩ := List.exists_mem_of_ne_nil _
        (SelectItem.describedList_ne_nil items hwritable.nonempty hgroups)
      cases path with
      | nil => exact (hwell [] hpath).elim
      | cons link rest =>
          have hkey : link.name.value ∈ (tree.level []).keys := by
            apply (hunites.nodes [] _).mpr
            exact ⟨_, hpath, LinkPath.names rest, rfl⟩
          rintro rfl
          cases hkey
    · exact hunites.shaped hwell hshort hexact hreadable hnode

/-- A first group whose members are roots, one of them a placeholder. -/
private def placeholderSource : String := "[{a},b](limit=9)[c(x=])].d"

theorem parse_shaped_placeholder :
    ∃ items tree node, SelectItem.parse placeholderSource ⟨true, .initial, 3⟩ = .ok items ∧
      parse placeholderSource ⟨true, .initial, 3⟩ = .ok tree ∧ tree.Holds ["{a}"] node ∧
      node.parameters.keys = ["limit"] ∧ node.children.isSome = true ∧
      node.Shaped items placeholderSource ⟨true, .initial, 3⟩ ["{a}"] := by
  have hok : ((parse placeholderSource ⟨true, .initial, 3⟩).toOption.bind fun tree =>
      (tree.find? "{a}").map fun node => (node.parameters.keys, node.children.isSome)) =
        some (["limit"], true) := by decide +kernel
  cases htree : parse placeholderSource ⟨true, .initial, 3⟩ with
  | error error => simp [htree, Except.toOption] at hok
  | ok tree =>
      obtain ⟨items, hitems, -, -, hshaped⟩ := parse_shaped htree
      simp only [htree, Except.toOption, Option.bind_some, Option.map_eq_some_iff,
        Prod.mk.injEq] at hok
      obtain ⟨node, hnode, hkeys, hchildren⟩ := hok
      have hholds : tree.Holds ["{a}"] node := .root (Table.mem_of_find?_eq_some hnode)
      exact ⟨items, tree, node, hitems, rfl, hholds, hkeys, hchildren, hshaped _ _ hholds⟩

end SelectTree

end RequestQuery
