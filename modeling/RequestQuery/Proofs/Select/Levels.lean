import RequestQuery.Proofs.Select.Parameters
import Mathlib.Data.List.Induction

/-!
# Levels of a select tree

A tree is looked at one level at a time: what stands below a path of names, each node with its parameters
and whether there is something below it. Putting a path into a tree touches every level once at most, and
there it is one more occurrence of a name.
-/

namespace RequestQuery

/-- What a node, or one occurrence of it in a path, says about itself. -/
structure Label where
  name : String
  parameters : Parameters
  /-- Whether there is something below. -/
  parent : Bool

namespace Label

/-- The label that an occurrence meets at a level, a bare one if its name is new. -/
def met (table : Table Label) (o : Label) : Label :=
  (table.find? o.name).getD ⟨o.name, [], false⟩

def absorb (table : Table Label) (o : Label) : Option (Table Label) :=
  match Parameters.merge (o.met table).parameters o.parameters with
  | .error _ => none
  | .ok merged => some (table.put o.name ⟨(o.met table).name, merged, (o.met table).parent || o.parent⟩)

def absorbAll (table : Table Label) : List Label → Option (Table Label)
  | [] => some table
  | o :: rest => (absorb table o).bind fun table => absorbAll table rest

theorem absorbAll_append (table : Table Label) (front rest : List Label) :
    absorbAll table (front ++ rest) =
      (absorbAll table front).bind fun table => absorbAll table rest := by
  induction front generalizing table with
  | nil => rfl
  | cons o front ih =>
      simp only [List.cons_append, absorbAll, Option.bind_assoc]
      congr 1
      funext table
      exact ih table

theorem absorb_eq_some {table result : Table Label} {o : Label} :
    absorb table o = some result ↔
      ((o.met table).parameters ≠ [] → o.parameters ≠ [] →
        Table.same (o.met table).parameters o.parameters = true) ∧
      result = table.put o.name ⟨(o.met table).name,
        if (o.met table).parameters.isEmpty then o.parameters else (o.met table).parameters,
        (o.met table).parent || o.parent⟩ := by
  unfold absorb
  constructor
  · intro h
    split at h <;> cases h
    next merged hmerged =>
      obtain ⟨hsame, rfl⟩ := Parameters.merge_eq_ok.mp hmerged
      exact ⟨hsame, rfl⟩
  · rintro ⟨hsame, rfl⟩
    rw [Parameters.merge_eq_ok.mpr ⟨hsame, rfl⟩]

def tablesOf (name : String) (os : List Label) : List Parameters :=
  (os.filter fun o => o.name == name).map Label.parameters

def summary (name : String) (os : List Label) : Label :=
  ⟨name, Parameters.first (tablesOf name os), os.any fun o => o.name == name && o.parent⟩

/-- A level has the names of some occurrences in order of their first, with what they come to. -/
structure Summarizes (table : Table Label) (os : List Label) : Prop where
  keys : table.keys = (os.map Label.name).eraseDups
  found : ∀ name label, table.find? name = some label → label = summary name os

/-- Occurrences of one name that have parameters have equal ones. -/
def Agree (os : List Label) : Prop := ∀ name, Parameters.AllSame (tablesOf name os)

theorem tablesOf_append (name : String) (front rest : List Label) :
    tablesOf name (front ++ rest) = tablesOf name front ++ tablesOf name rest := by
  simp [tablesOf]

theorem Agree.front {front rest : List Label} (h : Agree (front ++ rest)) : Agree front := by
  intro name own hown other hother
  have hall := h name
  rw [tablesOf_append] at hall
  exact hall own (List.mem_append_left _ hown) other (List.mem_append_left _ hother)

private theorem tablesOf_singleton (name : String) (o : Label) :
    tablesOf name [o] = if name = o.name then [o.parameters] else [] := by
  by_cases h : name = o.name
  · simp [tablesOf, h]
  · simp [tablesOf, h, Ne.symm h]

theorem Summarizes.met {table : Table Label} {os : List Label} (h : Summarizes table os)
    (o : Label) : o.met table = summary o.name os := by
  unfold Label.met
  cases hfind : table.find? o.name with
  | some label => exact h.found o.name label hfind
  | none =>
      have hkeys := Table.find?_eq_none_iff.mp hfind
      rw [h.keys, List.mem_eraseDups, List.mem_map] at hkeys
      have hnone : ∀ o' ∈ os, ¬o'.name = o.name := fun o' ho' heq => hkeys ⟨o', ho', heq⟩
      have htables : tablesOf o.name os = [] := by
        simpa [tablesOf] using hnone
      have hany : (os.any fun o' => o'.name == o.name && o'.parent) = false := by
        rw [List.any_eq_false]
        intro o' ho'
        simp [hnone o' ho']
      simp [summary, htables, hany, Parameters.first]

private theorem eraseDups_append_singleton (names : List String) (name : String) :
    (names ++ [name]).eraseDups =
      if name ∈ names then names.eraseDups else names.eraseDups ++ [name] := by
  rw [List.eraseDups_append]
  by_cases h : name ∈ names
  · simp [List.removeAll, h]
  · have hone : [name].eraseDups = [name] := rfl
    simp [List.removeAll, h, hone]

theorem nodup_eraseDups (names : List String) : names.eraseDups.Nodup := by
  induction names using List.reverseRecOn with
  | nil => exact List.nodup_nil
  | append_singleton names name ih =>
      rw [eraseDups_append_singleton]
      by_cases h : name ∈ names
      · rwa [if_pos h]
      · rw [if_neg h]
        refine List.Nodup.append ih (List.nodup_singleton name) ?_
        simpa using h

private theorem keys_put (table : Table Label) (name : String) (label : Label) :
    (table.put name label).keys =
      if name ∈ table.keys then table.keys else table.keys ++ [name] := by
  by_cases h : name ∈ table.keys
  · rw [if_pos h, Table.keys_put_of_mem label h]
  · rw [if_neg h, Table.keys_put_of_not_mem label h]

theorem Summarizes.absorb {table result : Table Label} {os : List Label} {o : Label}
    (h : Summarizes table os) (habsorb : o.absorb table = some result) :
    Summarizes result (os ++ [o]) := by
  obtain ⟨-, rfl⟩ := absorb_eq_some.mp habsorb
  rw [h.met o]
  constructor
  · rw [keys_put, List.map_append, List.map_singleton, eraseDups_append_singleton, h.keys]
    simp only [List.mem_eraseDups]
  · intro name label hfind
    rw [Table.find?_put] at hfind
    by_cases hname : name = o.name
    · rw [if_pos hname, Option.some.injEq] at hfind
      rw [← hfind]
      simp [summary, tablesOf_append, tablesOf_singleton, Parameters.first_append_singleton, hname]
    · rw [if_neg hname] at hfind
      rw [h.found name label hfind]
      simp [summary, tablesOf_append, tablesOf_singleton, hname, Ne.symm hname]

theorem Summarizes.agree_iff {table : Table Label} {os : List Label} {o : Label}
    (h : Summarizes table os) (hnodup : ∀ o' ∈ os ++ [o], o'.parameters.keys.Nodup)
    (hagree : Agree os) : Agree (os ++ [o]) ↔ (o.absorb table).isSome = true := by
  have hmem : ∀ name, ∀ table ∈ tablesOf name (os ++ [o]), table.keys.Nodup := by
    intro name table htable
    obtain ⟨o', ho', rfl⟩ := List.mem_map.mp htable
    exact hnodup o' (List.mem_of_mem_filter ho')
  have hone : Agree (os ++ [o]) ↔ Parameters.AllSame (tablesOf o.name (os ++ [o])) := by
    refine ⟨fun hall => hall o.name, fun hsame name => ?_⟩
    by_cases hname : name = o.name
    · exact hname ▸ hsame
    · rw [tablesOf_append, tablesOf_singleton, if_neg hname, List.append_nil]
      exact hagree name
  have hlast : tablesOf o.name (os ++ [o]) = tablesOf o.name os ++ [o.parameters] := by
    rw [tablesOf_append, tablesOf_singleton, if_pos rfl]
  have htables := hmem o.name
  rw [hlast] at htables
  rw [hone, hlast, Parameters.allSame_append_singleton htables]
  constructor
  · rintro ⟨-, hsame⟩
    have hmet : (o.met table).parameters = Parameters.first (tablesOf o.name os) := by
      rw [h.met o]
      rfl
    rw [← hmet] at hsame
    rw [absorb_eq_some.mpr ⟨hsame, rfl⟩]
    rfl
  · intro hsome
    obtain ⟨result, hresult⟩ := Option.isSome_iff_exists.mp hsome
    have hsame := (absorb_eq_some.mp hresult).1
    rw [h.met o] at hsame
    exact ⟨hagree o.name, hsame⟩

/-- Occurrences one after another are taken in exactly if they agree. -/
theorem Summarizes.absorbAll {rest : List Label} {table : Table Label} {os : List Label}
    (h : Summarizes table os) (hnodup : ∀ o ∈ os ++ rest, o.parameters.keys.Nodup)
    (hagree : Agree os) :
    (Agree (os ++ rest) ↔ (Label.absorbAll table rest).isSome = true) ∧
      ∀ result, Label.absorbAll table rest = some result → Summarizes result (os ++ rest) := by
  induction rest generalizing table os with
  | nil =>
      rw [List.append_nil, Label.absorbAll]
      exact ⟨by simp [hagree], fun result hresult => Option.some.inj hresult ▸ h⟩
  | cons o rest ih =>
      have hcons : os ++ o :: rest = os ++ [o] ++ rest := by simp
      rw [hcons] at hnodup ⊢
      have hstep := h.agree_iff (fun o' ho' => hnodup o' (List.mem_append_left _ ho')) hagree
      rw [Label.absorbAll]
      cases habsorb : o.absorb table with
      | none =>
          have hnot : ¬Agree (os ++ [o] ++ rest) := by
            intro hall
            simpa [habsorb] using hstep.mp hall.front
          exact ⟨⟨fun hall => absurd hall hnot, fun hsome => by cases hsome⟩,
            fun result hresult => by cases hresult⟩
      | some table' =>
          have hagree' : Agree (os ++ [o]) := hstep.mpr (by simp [habsorb])
          exact ih (h.absorb habsorb) hnodup hagree'

theorem summarizes_nil : Summarizes [] [] := ⟨rfl, fun _ _ h => by cases h⟩

end Label

section Labels

variable {β γ : Type} (f : β → γ) (table : Table β)

private theorem put_mapped (key : String) (value : β) :
    Table.put (table.map fun e => (e.1, f e.2)) key (f value) =
      (table.put key value).map fun e => (e.1, f e.2) := by
  induction table with
  | nil => rfl
  | cons e rest ih =>
      rw [List.map_cons, Table.put, Table.put, ih]
      by_cases h : e.1 = key
      · rw [if_pos h, if_pos h]
        rfl
      · rw [if_neg h, if_neg h]
        rfl

end Labels

def SelectNode.label (node : SelectNode) : Label :=
  ⟨node.name, node.parameters, node.children.isSome⟩

namespace SelectTree

def entry (tree : SelectTree) (name : String) : SelectNode :=
  (tree.find? name).getD (.bare name)

/-- The nodes below a path of names. -/
def level : SelectTree → List String → SelectTree
  | tree, [] => tree
  | tree, name :: above => level (tree.entry name).childTable above

def labels (tree : SelectTree) (above : List String) : Table Label :=
  (tree.level above).map fun e => (e.1, e.2.label)

theorem entry_put (tree : SelectTree) (name other : String) (node : SelectNode) :
    entry (tree.put name node) other = if other = name then node else tree.entry other := by
  unfold entry
  rw [Table.find?_put]
  by_cases h : other = name
  · rw [if_pos h, if_pos h]
    rfl
  · rw [if_neg h, if_neg h]

theorem find?_labels (tree : SelectTree) (above : List String) (name : String) :
    (tree.labels above).find? name = ((tree.level above).find? name).map SelectNode.label :=
  Table.find?_map SelectNode.label (tree.level above) name

theorem keys_labels (tree : SelectTree) (above : List String) :
    (tree.labels above).keys = (tree.level above).keys :=
  Table.keys_map SelectNode.label (tree.level above)

@[simp] theorem labels_empty (above : List String) : labels [] above = [] := by
  have hlevel : level [] above = [] := by
    induction above with
    | nil => rfl
    | cons name above ih => exact ih
  simp [labels, hlevel]

end SelectTree

namespace LinkPath

/-- The attribute of a path that stands below a path of names, with what follows it. -/
def next : List String → LinkPath → Option (Link × LinkPath)
  | _, [] => none
  | [], link :: rest => some (link, rest)
  | name :: above, link :: rest => if link.name.value = name then next above rest else none

end LinkPath

/-- The occurrence of an attribute in front of the rest of its path. -/
def Link.label (settings : SelectSettings) (link : Link × LinkPath) : Label :=
  ⟨link.1.name.value, link.1.table settings, !link.2.isEmpty⟩

private theorem SelectNode.merge_childless {own node : SelectNode} {name : String}
    {parameters : Parameters} :
    own.merge (.mk name parameters none) = .ok node ↔
      ∃ merged, Parameters.merge own.parameters parameters = .ok merged ∧
        node = .mk own.name merged own.children := by
  obtain ⟨ownName, ownParameters, children⟩ := own
  unfold merge
  rw [absorb]
  cases hmerge : Parameters.merge ownParameters parameters with
  | error parameter =>
      simp [SelectNode.parameters, hmerge]
  | ok merged =>
      simp only [SelectNode.parameters, hmerge, absorbChildren, SelectNode.setParameters,
        SelectNode.name, SelectNode.children, Option.map_none, Except.ok.injEq]
      exact ⟨fun h => ⟨merged, rfl, h.symm⟩, fun ⟨_, heq, h⟩ => by rw [h, heq]⟩

namespace SelectTree

variable {settings : SelectSettings} {source : String}

theorem meet_eq_ok {tree : SelectTree} {path : List String} {link : Link} {node : SelectNode} :
    meet settings source tree path link = .ok node ↔
      link.Readable settings ∧ ∃ merged,
        Parameters.merge (tree.entry link.name.value).parameters (link.table settings) = .ok merged ∧
          node = .mk (tree.entry link.name.value).name merged
            (tree.entry link.name.value).children := by
  unfold meet entry
  by_cases hreadable : link.Readable settings
  · rw [Link.toNode_eq_ok.mpr ⟨hreadable, rfl⟩]
    simp only [hreadable, true_and]
    cases hfind : tree.find? link.name.value with
    | none =>
        have hbare : Parameters.merge [] (link.table settings) = .ok (link.table settings) :=
          Parameters.merge_eq_ok.mpr ⟨fun h => absurd rfl h, rfl⟩
        simp only [Except.ok.injEq, Option.getD_none]
        constructor
        · intro h
          exact ⟨_, hbare, h.symm⟩
        · rintro ⟨merged, hmerged, rfl⟩
          rw [Except.ok.inj (hbare.symm.trans hmerged)]
          rfl
    | some existing =>
        have hmerge : existing.merge (.mk link.name.value (link.table settings) none) = .ok node ↔ _ :=
          SelectNode.merge_childless
        rw [Option.getD_some, ← hmerge]
        simp only
        cases existing.merge (.mk link.name.value (link.table settings) none) with
        | ok merged => simp
        | error conflict => simp
  · cases hnode : link.toNode settings source path with
    | error error => simp [hreadable]
    | ok node => exact absurd (Link.toNode_eq_ok.mp hnode).1 hreadable

/-- An attribute is merged into the node under its name, and the rest of the path into what stands
below it. -/
theorem insertPath_cons {above : List String} {link : Link} {rest : LinkPath}
    {tree result : SelectTree} :
    insertPath settings source above (link :: rest) tree = .ok result ↔
      link.Readable settings ∧ ∃ merged children,
        Parameters.merge (tree.entry link.name.value).parameters (link.table settings) = .ok merged ∧
        insertPath settings source (above ++ [link.name.value]) rest
          (tree.entry link.name.value).childTable = .ok children ∧
        result = tree.put link.name.value (.mk (tree.entry link.name.value).name merged
          (if rest.isEmpty then (tree.entry link.name.value).children else some children)) := by
  rw [insertPath]
  cases hmeet : meet settings source tree (above ++ [link.name.value]) link with
  | error error =>
      have hnot : ∀ merged, link.Readable settings →
          ¬Parameters.merge (tree.entry link.name.value).parameters (link.table settings) =
            .ok merged := by
        intro merged hreadable hmerged
        rw [meet_eq_ok.mpr ⟨hreadable, merged, hmerged, rfl⟩] at hmeet
        cases hmeet
      constructor
      · intro h
        cases h
      · rintro ⟨hreadable, merged, -, hmerged, -, -⟩
        exact absurd hmerged (hnot merged hreadable)
  | ok node =>
      obtain ⟨hreadable, merged, hmerged, rfl⟩ := meet_eq_ok.mp hmeet
      simp only [hreadable, hmerged, true_and, Except.ok.injEq, exists_and_left, exists_eq_left']
      cases rest with
      | nil => simp [insertPath, eq_comm]
      | cons next rest =>
          have hchildren : (SelectNode.mk (tree.entry link.name.value).name merged
              (tree.entry link.name.value).children).childTable =
                (tree.entry link.name.value).childTable := rfl
          rw [hchildren]
          cases insertPath settings source (above ++ [link.name.value]) (next :: rest)
            (tree.entry link.name.value).childTable with
          | error error => simp
          | ok children => simp [SelectNode.setChildren, eq_comm]

end SelectTree

/-- The attributes that paths have below a path of names, in order, each with what follows it. -/
def LinkPath.below (above : List String) (paths : List LinkPath) : List (Link × LinkPath) :=
  paths.filterMap (LinkPath.next above)

def LinkPath.occurrences (settings : SelectSettings) (above : List String) (paths : List LinkPath) :
    List Label :=
  (LinkPath.below above paths).map (Link.label settings)

namespace SelectTree

variable {settings : SelectSettings} {source : String}

private theorem occurrences_below (name : String) (above : List String) (link : Link)
    (rest : LinkPath) :
    LinkPath.occurrences settings (name :: above) [link :: rest] =
      if link.name.value = name then LinkPath.occurrences settings above [rest] else [] := by
  unfold LinkPath.occurrences LinkPath.below
  rw [List.filterMap_cons, List.filterMap_cons, LinkPath.next]
  by_cases h : link.name.value = name
  · rw [if_pos h, if_pos h, List.filterMap_nil, List.filterMap_nil]
  · rw [if_neg h, if_neg h]
    rfl

private theorem absorbAll_top (tree : SelectTree) (link : Link) (rest : LinkPath) :
    Label.absorbAll (tree.labels []) (LinkPath.occurrences settings [] [link :: rest]) =
      match Parameters.merge (tree.entry link.name.value).parameters (link.table settings) with
      | .error _ => none
      | .ok merged => some ((tree.labels []).put link.name.value
          ⟨(tree.entry link.name.value).name, merged,
            (tree.entry link.name.value).children.isSome || !rest.isEmpty⟩) := by
  have hmet : (Link.label settings (link, rest)).met (tree.labels []) =
      (tree.entry link.name.value).label := by
    have hfind : (tree.labels []).find? link.name.value =
        (tree.find? link.name.value).map SelectNode.label := find?_labels tree [] link.name.value
    unfold Label.met entry
    rw [show (Link.label settings (link, rest)).name = link.name.value from rfl, hfind]
    cases tree.find? link.name.value <;> rfl
  have hone : LinkPath.occurrences settings [] [link :: rest] =
      [Link.label settings (link, rest)] := rfl
  rw [hone, Label.absorbAll, Label.absorb, hmet]
  change (match Parameters.merge (tree.entry link.name.value).parameters (link.table settings) with
    | .error _ => none
    | .ok merged => some _).bind some = _
  cases Parameters.merge (tree.entry link.name.value).parameters (link.table settings) <;> rfl

/-- A path that is put into a tree is one more occurrence at each level it reaches. -/
theorem insertPath_labels {path : LinkPath} {above : List String} {tree result : SelectTree}
    (h : insertPath settings source above path tree = .ok result) :
    (∀ link ∈ path, link.Readable settings) ∧ ∀ place,
      Label.absorbAll (tree.labels place) (LinkPath.occurrences settings place [path]) =
        some (result.labels place) := by
  induction path generalizing above tree result with
  | nil =>
      cases h
      exact ⟨by simp, fun place => by cases place <;> rfl⟩
  | cons link rest ih =>
      obtain ⟨hreadable, merged, children, hmerged, hchildren, rfl⟩ := insertPath_cons.mp h
      obtain ⟨hrest, hbelow⟩ := ih hchildren
      refine ⟨List.forall_mem_cons.mpr ⟨hreadable, hrest⟩, fun place => ?_⟩
      let node := SelectNode.mk (tree.entry link.name.value).name merged
        (if rest.isEmpty then (tree.entry link.name.value).children else some children)
      have htable : node.childTable = children := by
        cases rest with
        | nil =>
            cases hchildren
            rfl
        | cons next rest => rfl
      cases place with
      | nil =>
          have hlabel : node.label = ⟨(tree.entry link.name.value).name, merged,
              (tree.entry link.name.value).children.isSome || !rest.isEmpty⟩ := by
            cases rest <;> simp [node, SelectNode.label, SelectNode.name, SelectNode.parameters,
              SelectNode.children]
          rw [absorbAll_top, hmerged]
          simp only
          rw [← hlabel]
          exact congrArg some (put_mapped SelectNode.label tree link.name.value node)
      | cons name place =>
          rw [occurrences_below]
          change _ = some (labels (entry (tree.put link.name.value node) name).childTable place)
          rw [entry_put]
          by_cases hname : link.name.value = name
          · rw [if_pos hname, if_pos hname.symm, htable, ← hbelow place, ← hname]
            rfl
          · rw [if_neg hname, if_neg (Ne.symm hname)]
            rfl

theorem insertPath_of_labels {path : LinkPath} {above : List String} {tree : SelectTree}
    (hreadable : ∀ link ∈ path, link.Readable settings)
    (hlabels : ∀ place,
      (Label.absorbAll (tree.labels place)
        (LinkPath.occurrences settings place [path])).isSome = true) :
    ∃ result, insertPath settings source above path tree = .ok result := by
  induction path generalizing above tree with
  | nil => exact ⟨tree, rfl⟩
  | cons link rest ih =>
      rw [List.forall_mem_cons] at hreadable
      have htop := hlabels []
      rw [absorbAll_top] at htop
      cases hmerged : Parameters.merge (tree.entry link.name.value).parameters
        (link.table settings) with
      | error parameter => simp [hmerged] at htop
      | ok merged =>
          have hbelow : ∀ place, (Label.absorbAll
              ((tree.entry link.name.value).childTable.labels place)
              (LinkPath.occurrences settings place [rest])).isSome = true := by
            intro place
            have hplace := hlabels (link.name.value :: place)
            rwa [occurrences_below, if_pos rfl] at hplace
          obtain ⟨children, hchildren⟩ := ih hreadable.2 hbelow
          exact ⟨_, insertPath_cons.mpr ⟨hreadable.1, merged, children, hmerged, hchildren, rfl⟩⟩

private theorem occurrences_cons (place : List String) (path : LinkPath) (paths : List LinkPath) :
    LinkPath.occurrences settings place (path :: paths) =
      LinkPath.occurrences settings place [path] ++ LinkPath.occurrences settings place paths := by
  rw [LinkPath.occurrences, LinkPath.below, ← List.singleton_append, List.filterMap_append,
    List.map_append]
  rfl

theorem insertPaths_labels {paths : List LinkPath} {tree result : SelectTree}
    (h : insertPaths settings source paths tree = .ok result) :
    (∀ path ∈ paths, ∀ link ∈ path, link.Readable settings) ∧ ∀ place,
      Label.absorbAll (tree.labels place) (LinkPath.occurrences settings place paths) =
        some (result.labels place) := by
  induction paths generalizing tree with
  | nil =>
      cases h
      exact ⟨by simp, fun place => rfl⟩
  | cons path paths ih =>
      rw [insertPaths] at h
      split at h
      next => cases h
      next tree' hpath =>
        obtain ⟨hreadable, hlabels⟩ := insertPath_labels hpath
        obtain ⟨hrest, hmore⟩ := ih h
        refine ⟨List.forall_mem_cons.mpr ⟨hreadable, hrest⟩, fun place => ?_⟩
        rw [occurrences_cons, Label.absorbAll_append, hlabels place]
        exact hmore place

theorem insertPaths_of_labels {paths : List LinkPath} {tree : SelectTree}
    (hreadable : ∀ path ∈ paths, ∀ link ∈ path, link.Readable settings)
    (hlabels : ∀ place,
      (Label.absorbAll (tree.labels place)
        (LinkPath.occurrences settings place paths)).isSome = true) :
    ∃ result, insertPaths settings source paths tree = .ok result := by
  induction paths generalizing tree with
  | nil => exact ⟨tree, rfl⟩
  | cons path paths ih =>
      rw [List.forall_mem_cons] at hreadable
      have hfirst : ∀ place, (Label.absorbAll (tree.labels place)
          (LinkPath.occurrences settings place [path])).isSome = true := by
        intro place
        have hplace := hlabels place
        rw [occurrences_cons, Label.absorbAll_append] at hplace
        exact Option.isSome_of_isSome_bind hplace
      have hinsert : ∃ tree', insertPath settings source [] path tree = .ok tree' :=
        insertPath_of_labels hreadable.1 hfirst
      obtain ⟨tree', htree'⟩ := hinsert
      have hmore : ∀ place, (Label.absorbAll (tree'.labels place)
          (LinkPath.occurrences settings place paths)).isSome = true := by
        intro place
        have hplace := hlabels place
        rw [occurrences_cons, Label.absorbAll_append,
          (insertPath_labels htree').2 place] at hplace
        exact hplace
      obtain ⟨result, hresult⟩ := ih hreadable.2 hmore
      exact ⟨result, by rw [insertPaths, htree']; exact hresult⟩

end SelectTree

end RequestQuery
