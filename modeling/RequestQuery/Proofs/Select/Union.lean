import RequestQuery.Proofs.Select.Levels
import RequestQuery.Proofs.Select.Paths
import Mathlib.Data.List.Find

/-!
# A select is the union of its paths

Merging a select gives the tree of all paths it describes, or fails if they do not fit together. Which
it is, and what the tree holds, is said of the paths alone.
-/

namespace RequestQuery

namespace LinkPath

def names (path : LinkPath) : List String := path.map fun link => link.name.value

theorem next_eq_some {above : List String} {path : LinkPath} {link : Link} {rest : LinkPath} :
    next above path = some (link, rest) ↔
      ∃ front, path = front ++ link :: rest ∧ names front = above := by
  induction path generalizing above with
  | nil => simp [next]
  | cons first path ih =>
      cases above with
      | nil =>
          simp only [next, Option.some.injEq, Prod.mk.injEq, names, List.map_eq_nil_iff]
          constructor
          · rintro ⟨rfl, rfl⟩
            exact ⟨[], rfl, rfl⟩
          · rintro ⟨front, hpath, rfl⟩
            simpa using hpath
      | cons name above =>
          rw [next]
          constructor
          · intro h
            split at h
            next hname =>
              obtain ⟨front, rfl, rfl⟩ := ih.mp h
              exact ⟨first :: front, rfl, by simp [names, hname]⟩
            next => cases h
          · rintro ⟨front, hpath, hnames⟩
            cases front with
            | nil => simp [names] at hnames
            | cons first' front =>
                simp only [List.cons_append, List.cons.injEq] at hpath
                simp only [names, List.map_cons, List.cons.injEq] at hnames
                rw [hpath.1, if_pos hnames.1]
                exact ih.mpr ⟨front, hpath.2, hnames.2⟩

theorem mem_below {above : List String} {paths : List LinkPath} {link : Link} {rest : LinkPath} :
    (link, rest) ∈ below above paths ↔
      ∃ front, front ++ link :: rest ∈ paths ∧ names front = above := by
  simp only [below, List.mem_filterMap, next_eq_some]
  constructor
  · rintro ⟨path, hpath, front, rfl, hnames⟩
    exact ⟨front, hpath, hnames⟩
  · rintro ⟨front, hpath, hnames⟩
    exact ⟨_, hpath, front, rfl, hnames⟩

end LinkPath

/-- What has to hold of items for them to be merged. -/
structure SelectItem.Mergeable (settings : SelectSettings) (items : List SelectItem) : Prop where
  groups : ∀ step ∈ SelectItem.allStepsList items, step.isEmptyGroup = false
  short : ∀ path ∈ SelectItem.describedList items, path.length ≤ settings.maxDepth
  unreserved : ∀ step ∈ SelectItem.allStepsList items, ∀ raw ∈ step.parameters,
    raw.name.value ∉ reservedParameters
  values : ∀ step ∈ SelectItem.allStepsList items, ∀ raw ∈ step.parameters,
    (raw.value? settings).isSome = true
  /-- Parameters of one name at one attribute have equal values. -/
  consistent : ∀ path ∈ SelectItem.describedList items, ∀ link ∈ path,
    RawParameter.Consistent settings link.parameters
  /-- Occurrences of one attribute path that have parameters have equal ones. -/
  equal : ∀ above, ∀ own ∈ LinkPath.below above (SelectItem.describedList items),
    ∀ other ∈ LinkPath.below above (SelectItem.describedList items),
      own.1.name.value = other.1.name.value → own.1.parameters ≠ [] → other.1.parameters ≠ [] →
        Table.same (own.1.table settings) (other.1.table settings) = true

/-- A tree that holds some paths and nothing else. -/
structure SelectTree.Unites (settings : SelectSettings) (paths : List LinkPath)
    (tree : SelectTree) : Prop where
  /-- The nodes are the prefixes of the paths, none of them twice. -/
  nodes : ∀ above name, name ∈ (tree.level above).keys ↔
    ∃ path ∈ paths, above ++ [name] <+: LinkPath.names path
  nodup : ∀ above, (tree.level above).keys.Nodup
  /-- At each level they stand in order of first appearance. -/
  order : ∀ above, (tree.level above).keys =
    ((LinkPath.below above paths).map fun place => place.1.name.value).eraseDups
  name : ∀ above name node, (tree.level above).find? name = some node → node.name = name
  /-- The parameters are those of the first occurrence that has any. -/
  parameters : ∀ above name node, (tree.level above).find? name = some node →
    node.parameters = ((LinkPath.below above paths).find? fun place =>
      place.1.name.value == name && !place.1.parameters.isEmpty).elim []
        fun place => place.1.table settings
  children : ∀ above name node, (tree.level above).find? name = some node →
    (node.children.isSome = true ↔
      ∃ place ∈ LinkPath.below above paths, place.1.name.value = name ∧ place.2 ≠ [])

section Merging

variable {settings : SelectSettings} {source : String}

namespace SelectTree

private theorem insertPaths_append {front rest : List LinkPath} {tree result : SelectTree} :
    insertPaths settings source (front ++ rest) tree = .ok result ↔
      ∃ mid, insertPaths settings source front tree = .ok mid ∧
        insertPaths settings source rest mid = .ok result := by
  induction front generalizing tree with
  | nil => simp [insertPaths]
  | cons path front ih =>
      rw [List.cons_append, insertPaths, insertPaths]
      cases insertPath settings source [] path tree with
      | error error => simp
      | ok tree' => exact ih

theorem insertItems_eq_ok {items : List SelectItem} {tree result : SelectTree} :
    insertItems settings source items tree = .ok result ↔
      (∀ step ∈ SelectItem.allStepsList items, step.isEmptyGroup = false) ∧
        (∀ path ∈ SelectItem.describedList items, path.length ≤ settings.maxDepth) ∧
          insertPaths settings source (SelectItem.describedList items) tree = .ok result := by
  induction items generalizing tree with
  | nil => simp [insertItems, SelectItem.allStepsList, SelectItem.describedList, insertPaths]
  | cons item items ih =>
      rw [insertItems, SelectItem.allStepsList, SelectItem.describedList, List.forall_mem_append,
        List.forall_mem_append, insertPaths_append]
      constructor
      · intro h
        split at h
        next => cases h
        next paths hpaths =>
          obtain ⟨hgroups, hshort, rfl⟩ := (item.paths_eq_ok paths).mp hpaths
          split at h
          next => cases h
          next mid hmid =>
            obtain ⟨hgroups', hshort', hrest⟩ := ih.mp h
            exact ⟨⟨hgroups, hgroups'⟩, ⟨hshort, hshort'⟩, mid, hmid, hrest⟩
      · rintro ⟨⟨hgroups, hgroups'⟩, ⟨hshort, hshort'⟩, mid, hmid, hrest⟩
        rw [(item.paths_eq_ok _).mpr ⟨hgroups, hshort, rfl⟩]
        simp only
        rw [hmid]
        exact ih.mpr ⟨hgroups', hshort', hrest⟩

/-- Paths are put into an empty tree exactly if their attributes can be read and occurrences agree. -/
theorem insertPaths_empty {paths : List LinkPath} :
    ((∃ tree, insertPaths settings source paths [] = .ok tree) ↔
      (∀ path ∈ paths, ∀ link ∈ path, link.Readable settings) ∧
        ∀ above, Label.Agree (LinkPath.occurrences settings above paths)) ∧
    ∀ tree, insertPaths settings source paths [] = .ok tree → ∀ above,
      Label.Summarizes (tree.labels above) (LinkPath.occurrences settings above paths) := by
  have hall : ∀ above,
      (Label.Agree (LinkPath.occurrences settings above paths) ↔
        (Label.absorbAll [] (LinkPath.occurrences settings above paths)).isSome = true) ∧
      ∀ table, Label.absorbAll [] (LinkPath.occurrences settings above paths) = some table →
        Label.Summarizes table (LinkPath.occurrences settings above paths) := by
    intro above
    have hnodup : ∀ o ∈ [] ++ LinkPath.occurrences settings above paths,
        o.parameters.keys.Nodup := by
      intro o ho
      obtain ⟨place, -, rfl⟩ := List.mem_map.mp ho
      exact place.1.nodup_keys_table
    have hnil : Label.Agree [] := by
      intro name own hown
      cases hown
    exact Label.summarizes_nil.absorbAll hnodup hnil
  refine ⟨⟨?_, ?_⟩, ?_⟩
  · rintro ⟨tree, htree⟩
    obtain ⟨hreadable, hlabels⟩ := insertPaths_labels htree
    refine ⟨hreadable, fun above => (hall above).1.mpr ?_⟩
    have habove := hlabels above
    rw [labels_empty] at habove
    rw [habove]
    rfl
  · rintro ⟨hreadable, hagree⟩
    apply insertPaths_of_labels hreadable
    intro above
    rw [labels_empty]
    exact (hall above).1.mp (hagree above)
  · intro tree htree above
    have habove := (insertPaths_labels htree).2 above
    rw [labels_empty] at habove
    exact (hall above).2 _ habove

end SelectTree

private theorem readable_iff {items : List SelectItem}
    (hsteps : ∀ step ∈ SelectItem.allStepsList items, step.isEmptyGroup = false ∧ step.Full) :
    (∀ path ∈ SelectItem.describedList items, ∀ link ∈ path, link.Readable settings) ↔
      (∀ step ∈ SelectItem.allStepsList items, ∀ raw ∈ step.parameters, raw.Accepted settings) ∧
        ∀ path ∈ SelectItem.describedList items, ∀ link ∈ path,
          RawParameter.Consistent settings link.parameters := by
  have hsame : ∀ raw : RawParameter,
      (∃ path ∈ SelectItem.describedList items, ∃ link ∈ path, raw ∈ link.parameters) ↔
        ∃ step ∈ SelectItem.allStepsList items, raw ∈ step.parameters := by
    intro raw
    have hmem : raw ∈ (SelectItem.describedList items).flatMap LinkPath.parameters ↔
        raw ∈ (SelectItem.allStepsList items).flatMap SelectStep.parameters :=
      SelectItem.mem_parameters_describedList items hsteps
    simpa only [List.mem_flatMap, LinkPath.parameters] using hmem
  constructor
  · intro h
    refine ⟨fun step hstep raw hraw => ?_, fun path hpath link hlink => ?_⟩
    · obtain ⟨path, hpath, link, hlink, hmem⟩ := (hsame raw).mpr ⟨step, hstep, hraw⟩
      exact (h path hpath link hlink).accepted raw hmem
    · exact (h path hpath link hlink).consistent
  · rintro ⟨haccepted, hconsistent⟩ path hpath link hlink
    refine ⟨fun raw hraw => ?_, hconsistent path hpath link hlink⟩
    obtain ⟨step, hstep, hmem⟩ := (hsame raw).mp ⟨path, hpath, link, hlink, hraw⟩
    exact haccepted step hstep raw hmem

private theorem mem_tablesOf {above : List String} {paths : List LinkPath} {name : String}
    {table : Parameters} :
    table ∈ Label.tablesOf name (LinkPath.occurrences settings above paths) ↔
      ∃ place ∈ LinkPath.below above paths,
        place.1.name.value = name ∧ place.1.table settings = table := by
  simp only [Label.tablesOf, LinkPath.occurrences, List.mem_map, List.mem_filter,
    beq_iff_eq]
  constructor
  · rintro ⟨o, ⟨⟨place, hplace, rfl⟩, hname⟩, htable⟩
    exact ⟨place, hplace, hname, htable⟩
  · rintro ⟨place, hplace, hname, htable⟩
    exact ⟨_, ⟨⟨place, hplace, rfl⟩, hname⟩, htable⟩

private theorem readable_below {paths : List LinkPath}
    (h : ∀ path ∈ paths, ∀ link ∈ path, link.Readable settings) {above : List String}
    {place : Link × LinkPath} (hplace : place ∈ LinkPath.below above paths) :
    place.1.Readable settings := by
  obtain ⟨front, hpath, -⟩ := LinkPath.mem_below.mp hplace
  exact h _ hpath _ (by simp)

private theorem agree_iff {paths : List LinkPath}
    (h : ∀ path ∈ paths, ∀ link ∈ path, link.Readable settings) (above : List String) :
    Label.Agree (LinkPath.occurrences settings above paths) ↔
      ∀ own ∈ LinkPath.below above paths, ∀ other ∈ LinkPath.below above paths,
        own.1.name.value = other.1.name.value → own.1.parameters ≠ [] → other.1.parameters ≠ [] →
          Table.same (own.1.table settings) (other.1.table settings) = true := by
  have hne : ∀ place ∈ LinkPath.below above paths,
      (place.1.table settings ≠ [] ↔ place.1.parameters ≠ []) := by
    intro place hplace
    exact not_congr (Link.table_eq_nil (readable_below h hplace))
  constructor
  · intro hagree own hown other hother hname hownParameters hotherParameters
    apply hagree own.1.name.value
    · exact mem_tablesOf.mpr ⟨own, hown, rfl, rfl⟩
    · exact mem_tablesOf.mpr ⟨other, hother, hname.symm, rfl⟩
    · exact (hne own hown).mpr hownParameters
    · exact (hne other hother).mpr hotherParameters
  · intro hequal name own hown other hother hownTable hotherTable
    obtain ⟨place, hplace, hname, rfl⟩ := mem_tablesOf.mp hown
    obtain ⟨place', hplace', hname', rfl⟩ := mem_tablesOf.mp hother
    exact hequal place hplace place' hplace' (hname.trans hname'.symm)
      ((hne place hplace).mp hownTable) ((hne place' hplace').mp hotherTable)

private theorem exists_below {above : List String} {name : String} {paths : List LinkPath} :
    (∃ place ∈ LinkPath.below above paths, place.1.name.value = name) ↔
      ∃ path ∈ paths, above ++ [name] <+: LinkPath.names path := by
  constructor
  · rintro ⟨⟨link, rest⟩, hplace, rfl⟩
    obtain ⟨front, hpath, rfl⟩ := LinkPath.mem_below.mp hplace
    exact ⟨_, hpath, LinkPath.names rest, by simp [LinkPath.names]⟩
  · rintro ⟨path, hpath, after, hafter⟩
    rw [List.append_assoc, List.singleton_append] at hafter
    obtain ⟨front, back, rfl, hfront, hback⟩ := List.map_eq_append_iff.mp hafter.symm
    obtain ⟨link, rest, rfl, hlink, -⟩ := List.map_eq_cons_iff.mp hback
    exact ⟨(link, rest), LinkPath.mem_below.mpr ⟨front, hpath, hfront⟩, hlink⟩

private theorem first_tablesOf {places : List (Link × LinkPath)}
    (h : ∀ place ∈ places, place.1.Readable settings) (name : String) :
    Parameters.first (Label.tablesOf name (places.map (Link.label settings))) =
      (places.find? fun place =>
        place.1.name.value == name && !place.1.parameters.isEmpty).elim []
          fun place => place.1.table settings := by
  induction places with
  | nil => rfl
  | cons place places ih =>
      rw [List.forall_mem_cons] at h
      have hnil := Link.table_eq_nil h.1
      have hrest := ih h.2
      unfold Parameters.first Label.tablesOf at hrest ⊢
      rw [List.map_cons]
      by_cases hname : place.1.name.value = name
      · have hoccurs : ((Link.label settings place).name == name) = true := by
          simpa [Link.label] using hname
        rw [List.filter_cons, if_pos hoccurs, List.map_cons]
        by_cases hparameters : place.1.parameters = []
        · have htable : (Link.label settings place).parameters = [] := hnil.mpr hparameters
          simpa [htable, hname, hparameters] using hrest
        · have htable : place.1.table settings ≠ [] := fun h => hparameters (hnil.mp h)
          simp [htable, hname, hparameters, Link.label]
      · have hoccurs : ¬((Link.label settings place).name == name) = true := by
          simpa [Link.label] using hname
        rw [List.filter_cons, if_neg hoccurs]
        simpa [hname] using hrest

/-- A tree holds the paths that its levels are summaries of. -/
theorem unites_of_summarizes {paths : List LinkPath} {tree : SelectTree}
    (hreadable : ∀ path ∈ paths, ∀ link ∈ path, link.Readable settings)
    (h : ∀ above,
      Label.Summarizes (tree.labels above) (LinkPath.occurrences settings above paths)) :
    tree.Unites settings paths := by
  have horder : ∀ above, (tree.level above).keys =
      ((LinkPath.below above paths).map fun place => place.1.name.value).eraseDups := by
    intro above
    have hkeys := (h above).keys
    rw [SelectTree.keys_labels, LinkPath.occurrences, List.map_map] at hkeys
    exact hkeys
  have hfound : ∀ above name node, (tree.level above).find? name = some node →
      node.label = Label.summary name (LinkPath.occurrences settings above paths) := by
    intro above name node hnode
    apply (h above).found
    rw [SelectTree.find?_labels, hnode]
    rfl
  refine ⟨fun above name => ?_, fun above => ?_, horder, ?_, ?_, ?_⟩
  · rw [horder, List.mem_eraseDups, List.mem_map]
    exact exists_below
  · rw [horder]
    exact Label.nodup_eraseDups _
  · intro above name node hnode
    exact congrArg Label.name (hfound above name node hnode)
  · intro above name node hnode
    rw [← first_tablesOf fun place hplace => readable_below hreadable hplace]
    exact congrArg Label.parameters (hfound above name node hnode)
  · intro above name node hnode
    have hparent : node.children.isSome = _ :=
      congrArg Label.parent (hfound above name node hnode)
    rw [hparent, Label.summary, LinkPath.occurrences, List.any_map, List.any_eq_true]
    simp [Link.label]

end Merging

namespace SelectTree

/-- Items are merged exactly if their paths fit together, and then the tree is the union of the paths.
Only members of groups have to have steps, for the parameters of the group to go to. -/
theorem ofItems_unites (items : List SelectItem) (source : String) (settings : SelectSettings)
    (hfull : ∀ step ∈ SelectItem.allStepsList items, ∀ item ∈ step.members, item.steps ≠ []) :
    ((∃ tree, ofItems items source settings = .ok tree) ↔ SelectItem.Mergeable settings items) ∧
      ∀ tree, ofItems items source settings = .ok tree →
        tree.Unites settings (SelectItem.describedList items) := by
  unfold ofItems
  constructor
  · constructor
    · rintro ⟨tree, htree⟩
      obtain ⟨hgroups, hshort, hpaths⟩ := insertItems_eq_ok.mp htree
      obtain ⟨hreadable, hagree⟩ := insertPaths_empty.1.mp ⟨tree, hpaths⟩
      have hsolid : ∀ step ∈ SelectItem.allStepsList items, step.isEmptyGroup = false ∧ step.Full :=
        fun step hstep => ⟨hgroups step hstep, hfull step hstep⟩
      obtain ⟨haccepted, hconsistent⟩ := (readable_iff hsolid).mp hreadable
      exact {
        groups := hgroups
        short := hshort
        unreserved := fun step hstep raw hraw => (haccepted step hstep raw hraw).1
        values := fun step hstep raw hraw => (haccepted step hstep raw hraw).2
        consistent := hconsistent
        equal := fun above => (agree_iff hreadable above).mp (hagree above) }
    · intro h
      have hsolid : ∀ step ∈ SelectItem.allStepsList items, step.isEmptyGroup = false ∧ step.Full :=
        fun step hstep => ⟨h.groups step hstep, hfull step hstep⟩
      have haccepted : ∀ step ∈ SelectItem.allStepsList items, ∀ raw ∈ step.parameters,
          raw.Accepted settings :=
        fun step hstep raw hraw => ⟨h.unreserved step hstep raw hraw, h.values step hstep raw hraw⟩
      have hreadable := (readable_iff hsolid).mpr ⟨haccepted, h.consistent⟩
      have hagree : ∀ above, Label.Agree
          (LinkPath.occurrences settings above (SelectItem.describedList items)) :=
        fun above => (agree_iff hreadable above).mpr (h.equal above)
      obtain ⟨tree, htree⟩ := insertPaths_empty.1.mpr ⟨hreadable, hagree⟩
      exact ⟨tree, insertItems_eq_ok.mpr ⟨h.groups, h.short, htree⟩⟩
  · intro tree htree
    have hpaths := (insertItems_eq_ok.mp htree).2.2
    have hreadable := (insertPaths_empty.1.mp ⟨tree, hpaths⟩).1
    exact unites_of_summarizes hreadable (insertPaths_empty.2 tree hpaths)

/-- `a[b,c(limit=2)](id=7).d,a.c.e` -/
private def fanOutItems : List SelectItem :=
  let span := Span.point 0
  [.chain [
      .named ⟨"a", span⟩ [],
      .group [.chain [.named ⟨"b", span⟩ []] span,
          .chain [.named ⟨"c", span⟩ [⟨⟨"limit", span⟩, ⟨"2", span⟩⟩]] span]
        [⟨⟨"id", span⟩, ⟨"7", span⟩⟩] span,
      .named ⟨"d", span⟩ []] span,
    .chain [.named ⟨"a", span⟩ [], .named ⟨"c", span⟩ [], .named ⟨"e", span⟩ []] span]

theorem ofItems_unites_fanOut :
    (∀ step ∈ SelectItem.allStepsList fanOutItems, ∀ item ∈ step.members, item.steps ≠ []) ∧
    SelectItem.Mergeable .initial fanOutItems ∧
    ∃ tree, ofItems fanOutItems "" .initial = .ok tree ∧
      tree.Unites .initial (SelectItem.describedList fanOutItems) ∧
      (tree.level ["a"]).keys = ["b", "c"] ∧ (tree.level ["a", "c"]).keys = ["d", "e"] := by
  have hfull : ∀ step ∈ SelectItem.allStepsList fanOutItems, ∀ item ∈ step.members,
      item.steps ≠ [] := by
    simp [fanOutItems, SelectItem.allStepsList, SelectItem.allSteps, SelectStep.allStepsList,
      SelectStep.allSteps, SelectStep.members, SelectItem.steps]
  have hok : (ofItems fanOutItems "" .initial).isOk = true := by decide +kernel
  have hunites := ofItems_unites fanOutItems "" .initial hfull
  cases htree : ofItems fanOutItems "" .initial with
  | error error => simp [htree, Except.isOk, Except.toBool] at hok
  | ok tree =>
      have hunion := hunites.2 tree htree
      refine ⟨hfull, hunites.1.mp ⟨tree, htree⟩, tree, rfl, hunion, ?_, ?_⟩
      · rw [hunion.order]
        decide +kernel
      · rw [hunion.order]
        decide +kernel

end SelectTree

end RequestQuery
