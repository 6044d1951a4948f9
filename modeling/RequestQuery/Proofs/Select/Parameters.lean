import RequestQuery.Proofs.Select.Equality
import RequestQuery.Select.Merge

/-!
# Reading and merging parameters

The parameters of an attribute are read into a table exactly if each is accepted and those of one name
have equal values. The tables of several occurrences merge exactly if all that are not empty are equal,
and the first of them is what they merge to.
-/

namespace RequestQuery

namespace RawParameter

variable (settings : SelectSettings)

/-- What the rule for the name of a parameter makes of its value. -/
def value? (raw : RawParameter) : Option ParameterValue :=
  (ParameterValue.parse settings.filter raw.name.value raw.value.value).toOption

/-- A parameter that may be given, with a value that can be read. -/
def Accepted (raw : RawParameter) : Prop :=
  raw.name.value ∉ reservedParameters ∧ (raw.value? settings).isSome = true

/-- Put parameters into a table in which their name is not there yet. -/
def addAll (table : Parameters) : List RawParameter → Parameters
  | [] => table
  | raw :: rest =>
      match raw.value? settings with
      | none => addAll table rest
      | some value =>
          if table.has raw.name.value then addAll table rest
          else addAll (table.put raw.name.value value) rest

/-- Parameters of one name have equal values. -/
def Consistent (parameters : List RawParameter) : Prop :=
  ∀ p ∈ parameters, ∀ q ∈ parameters, p.name.value = q.name.value →
    ∀ v w, p.value? settings = some v → q.value? settings = some w → (v == w) = true

/-- Parameters have the values that a table has for their names. -/
def Fits (table : Parameters) (parameters : List RawParameter) : Prop :=
  ∀ p ∈ parameters, ∀ v w, table.find? p.name.value = some v → p.value? settings = some w →
    (v == w) = true

variable {settings}

theorem read_eq_ok {source : String} {raw : RawParameter} {value : ParameterValue} :
    raw.read settings source = .ok value ↔
      raw.name.value ∉ reservedParameters ∧ raw.value? settings = some value := by
  unfold read value?
  by_cases hreserved : raw.name.value ∈ reservedParameters
  · simp [hreserved]
  · cases ParameterValue.parse settings.filter raw.name.value raw.value.value with
    | ok value' => simp [hreserved, Except.toOption]
    | error error => simp [hreserved, Except.toOption]

private theorem consistent_cons {raw : RawParameter} {rest : List RawParameter}
    {value : ParameterValue} (hvalue : raw.value? settings = some value) :
    Consistent settings (raw :: rest) ↔
      (∀ p ∈ rest, raw.name.value = p.name.value → ∀ w, p.value? settings = some w →
        (value == w) = true) ∧ Consistent settings rest := by
  constructor
  · intro h
    refine ⟨fun p hp hname w hw => ?_, fun p hp q hq => ?_⟩
    · exact h raw List.mem_cons_self p (List.mem_cons_of_mem _ hp) hname value w hvalue hw
    · exact h p (List.mem_cons_of_mem _ hp) q (List.mem_cons_of_mem _ hq)
  · rintro ⟨hraw, hrest⟩ p hp q hq hname v w hv hw
    rcases List.mem_cons.mp hp with rfl | hp'
    · rw [hvalue, Option.some.injEq] at hv
      subst hv
      rcases List.mem_cons.mp hq with rfl | hq'
      · rw [hvalue, Option.some.injEq] at hw
        rw [hw]
        exact BEq.rfl
      · exact hraw q hq' hname w hw
    · rcases List.mem_cons.mp hq with rfl | hq'
      · rw [hvalue, Option.some.injEq] at hw
        subst hw
        exact BEq.symm (hraw p hp' hname.symm v hv)
      · exact hrest p hp' q hq' hname v w hv hw

private theorem fits_put {table : Parameters} {raw : RawParameter} {rest : List RawParameter}
    {value : ParameterValue} (hvalue : raw.value? settings = some value)
    (hfind : table.find? raw.name.value = none) :
    Fits settings table (raw :: rest) ∧ Consistent settings (raw :: rest) ↔
      Fits settings (table.put raw.name.value value) rest ∧ Consistent settings rest := by
  rw [consistent_cons hvalue]
  constructor
  · rintro ⟨hfits, hraw, hrest⟩
    refine ⟨fun p hp v w hv hw => ?_, hrest⟩
    rw [Table.find?_put] at hv
    by_cases hname : p.name.value = raw.name.value
    · rw [if_pos hname, Option.some.injEq] at hv
      exact hv ▸ hraw p hp hname.symm w hw
    · rw [if_neg hname] at hv
      exact hfits p (List.mem_cons_of_mem _ hp) v w hv hw
  · rintro ⟨hfits, hrest⟩
    refine ⟨fun p hp v w hv hw => ?_, fun p hp hname w hw => ?_, hrest⟩
    · rcases List.mem_cons.mp hp with rfl | hp
      · rw [hfind] at hv
        cases hv
      · have hname : p.name.value ≠ raw.name.value := by
          intro hname
          rw [hname, hfind] at hv
          cases hv
        apply hfits p hp v w _ hw
        rw [Table.find?_put, if_neg hname, hv]
    · apply hfits p hp value w _ hw
      rw [Table.find?_put, if_pos hname.symm]

/-- A name that is there decides the value, and the rest is compared with the table alone. -/
private theorem fits_cons {table : Parameters} {raw : RawParameter} {rest : List RawParameter}
    {value existing : ParameterValue} (hvalue : raw.value? settings = some value)
    (hfind : table.find? raw.name.value = some existing) :
    Fits settings table (raw :: rest) ∧ Consistent settings (raw :: rest) ↔
      (existing == value) = true ∧ Fits settings table rest ∧ Consistent settings rest := by
  rw [consistent_cons hvalue]
  constructor
  · rintro ⟨hfits, -, hrest⟩
    refine ⟨hfits raw List.mem_cons_self existing value hfind hvalue, fun p hp => ?_, hrest⟩
    exact hfits p (List.mem_cons_of_mem _ hp)
  · rintro ⟨hequal, hfits, hrest⟩
    refine ⟨fun p hp v w hv hw => ?_, fun p hp hname w hw => ?_, hrest⟩
    · rcases List.mem_cons.mp hp with rfl | hp
      · rw [hfind, Option.some.injEq] at hv
        rw [hvalue, Option.some.injEq] at hw
        rw [← hv, ← hw]
        exact hequal
      · exact hfits p hp v w hv hw
    · have hother := hfits p hp existing w (hname ▸ hfind) hw
      exact BEq.trans (BEq.symm hequal) hother

theorem readAll_eq_ok {source : String} {path : List String} {parameters : List RawParameter}
    {table result : Parameters} :
    readAll settings source path parameters table = .ok result ↔
      (∀ raw ∈ parameters, raw.Accepted settings) ∧
        (Fits settings table parameters ∧ Consistent settings parameters) ∧
          result = addAll settings table parameters := by
  induction parameters generalizing table with
  | nil =>
      rw [readAll, addAll, Except.ok.injEq]
      exact ⟨fun h => ⟨by simp, ⟨by simp [Fits], by simp [Consistent]⟩, h.symm⟩,
        fun h => h.2.2.symm⟩
  | cons raw rest ih =>
      rw [readAll, List.forall_mem_cons, addAll]
      by_cases haccepted : raw.Accepted settings
      · obtain ⟨hname, hsome⟩ := haccepted
        obtain ⟨value, hvalue⟩ := Option.isSome_iff_exists.mp hsome
        rw [read_eq_ok.mpr ⟨hname, hvalue⟩, hvalue]
        simp only
        cases hfind : table.find? raw.name.value with
        | none =>
            have hhas : ¬table.has raw.name.value = true := by simp [Table.has, hfind]
            rw [if_neg hhas, ih, fits_put hvalue hfind]
            simp [Accepted, hname, hvalue]
        | some existing =>
            have hhas : table.has raw.name.value = true := by simp [Table.has, hfind]
            rw [if_pos hhas, fits_cons hvalue hfind]
            simp only
            by_cases hequal : (existing == value) = true
            · rw [if_pos hequal, ih]
              simp [Accepted, hname, hvalue, hequal]
            · simp [hequal]
      · cases hread : raw.read settings source with
        | error error => simp [haccepted]
        | ok value =>
            obtain ⟨hname, hvalue⟩ := read_eq_ok.mp hread
            exact absurd ⟨hname, by simp [hvalue]⟩ haccepted

theorem nodup_keys_addAll {table : Parameters} (h : table.keys.Nodup)
    (parameters : List RawParameter) : (addAll settings table parameters).keys.Nodup := by
  fun_induction addAll settings table parameters with
  | case1 => exact h
  | case2 table raw rest _ ih => exact ih h
  | case3 table raw rest value _ _ ih => exact ih h
  | case4 table raw rest value _ _ ih => exact ih (Table.nodup_keys_put _ _ h)

private theorem addAll_ne_nil {table : Parameters} (h : table ≠ [])
    (parameters : List RawParameter) : addAll settings table parameters ≠ [] := by
  fun_induction addAll settings table parameters with
  | case1 => exact h
  | case2 table raw rest _ ih => exact ih h
  | case3 table raw rest value _ _ ih => exact ih h
  | case4 table raw rest value _ _ ih =>
      apply ih
      cases table with
      | nil => simp [Table.put]
      | cons e rest => simp only [Table.put]; split <;> simp

end RawParameter

namespace Link

variable (settings : SelectSettings)

/-- The parameters of an attribute by name, of several with one name the first. -/
def table (link : Link) : Parameters := RawParameter.addAll settings [] link.parameters

/-- The parameters of an attribute are accepted, and those of one name have equal values. -/
structure Readable (link : Link) : Prop where
  accepted : ∀ raw ∈ link.parameters, raw.Accepted settings
  consistent : RawParameter.Consistent settings link.parameters

variable {settings}

theorem toNode_eq_ok {source : String} {path : List String} {link : Link} {node : SelectNode} :
    link.toNode settings source path = .ok node ↔
      link.Readable settings ∧ node = .mk link.name.value (link.table settings) none := by
  have hfits : RawParameter.Fits settings [] link.parameters := by
    intro p _ v w hv
    cases hv
  unfold toNode
  constructor
  · intro h
    split at h <;> cases h
    next table htable =>
      obtain ⟨haccepted, ⟨-, hconsistent⟩, rfl⟩ := RawParameter.readAll_eq_ok.mp htable
      exact ⟨⟨haccepted, hconsistent⟩, rfl⟩
  · rintro ⟨hreadable, rfl⟩
    rw [RawParameter.readAll_eq_ok.mpr
      ⟨hreadable.accepted, ⟨hfits, hreadable.consistent⟩, rfl⟩]
    rfl

theorem nodup_keys_table (link : Link) : (link.table settings).keys.Nodup :=
  RawParameter.nodup_keys_addAll (by simp [Table.keys]) _

theorem table_eq_nil {link : Link} (h : link.Readable settings) :
    link.table settings = [] ↔ link.parameters = [] := by
  unfold table
  cases hparameters : link.parameters with
  | nil => simp [RawParameter.addAll]
  | cons raw rest =>
      have haccepted := h.accepted raw (by simp [hparameters])
      obtain ⟨value, hvalue⟩ := Option.isSome_iff_exists.mp haccepted.2
      have hput : Table.put [] raw.name.value value ≠ [] := by simp [Table.put]
      have hne : RawParameter.addAll settings (Table.put [] raw.name.value value) rest ≠ [] :=
        RawParameter.addAll_ne_nil hput rest
      simpa [RawParameter.addAll, hvalue, Table.has, Table.find?] using hne

end Link

namespace Parameters

theorem merge_eq_ok {own other merged : Parameters} :
    merge own other = .ok merged ↔
      (own ≠ [] → other ≠ [] → Table.same own other = true) ∧
        merged = if own.isEmpty then other else own := by
  unfold merge
  by_cases hother : other = []
  · have hmerged : (if own.isEmpty then other else own) = own := by
      cases own with
      | nil => exact hother
      | cons e rest => rfl
    rw [hmerged]
    simpa [hother] using eq_comm
  · by_cases hown : own = []
    · simpa [hother, hown] using eq_comm
    · by_cases hsame : Table.same own other = true
      · simpa [hother, hown, hsame] using eq_comm
      · simp [hother, hown, hsame]

/-- The first table that is not empty. -/
def first (tables : List Parameters) : Parameters :=
  (tables.find? fun table => !table.isEmpty).getD []

/-- All tables that are not empty are equal. -/
def AllSame (tables : List Parameters) : Prop :=
  ∀ own ∈ tables, ∀ other ∈ tables, own ≠ [] → other ≠ [] → Table.same own other = true

theorem first_append_singleton (tables : List Parameters) (other : Parameters) :
    first (tables ++ [other]) = if (first tables).isEmpty then other else first tables := by
  unfold first
  rw [List.find?_append]
  cases hfind : tables.find? fun table => !table.isEmpty with
  | none =>
      cases other with
      | nil => rfl
      | cons e rest => rfl
  | some table =>
      have hne : table ≠ [] := by simpa using List.find?_some hfind
      simp [hne]

theorem first_eq_nil_or_mem (tables : List Parameters) :
    (first tables = [] ∧ ∀ table ∈ tables, table = []) ∨
      (first tables ≠ [] ∧ first tables ∈ tables) := by
  unfold first
  cases hfind : tables.find? fun table => !table.isEmpty with
  | none =>
      rw [List.find?_eq_none] at hfind
      exact .inl ⟨rfl, fun table htable => by simpa using hfind table htable⟩
  | some table =>
      have hne : table ≠ [] := by simpa using List.find?_some hfind
      exact .inr ⟨hne, List.mem_of_find?_eq_some hfind⟩

theorem allSame_append_singleton {tables : List Parameters} {other : Parameters}
    (hnodup : ∀ table ∈ tables ++ [other], table.keys.Nodup) :
    AllSame (tables ++ [other]) ↔
      AllSame tables ∧
        (first tables ≠ [] → other ≠ [] → Table.same (first tables) other = true) := by
  rw [List.forall_mem_append, List.forall_mem_singleton] at hnodup
  constructor
  · intro h
    refine ⟨fun own hown table htable => ?_, fun hfirst hother => ?_⟩
    · exact h own (List.mem_append_left _ hown) table (List.mem_append_left _ htable)
    · rcases first_eq_nil_or_mem tables with ⟨hnil, -⟩ | ⟨-, hmem⟩
      · exact absurd hnil hfirst
      · exact h _ (List.mem_append_left _ hmem) other (by simp) hfirst hother
  · rintro ⟨htables, hother⟩
    have hsame : ∀ table ∈ tables, table ≠ [] → other ≠ [] → Table.same table other = true := by
      intro table htable hne hne'
      rcases first_eq_nil_or_mem tables with ⟨-, hall⟩ | ⟨hfirst, hmem⟩
      · exact absurd (hall table htable) hne
      · exact Table.same_trans (htables table htable _ hmem hne hfirst) (hother hfirst hne')
    intro own hown table htable hne hne'
    rw [List.mem_append, List.mem_singleton] at hown htable
    rcases hown with hown | rfl
    · rcases htable with htable | rfl
      · exact htables own hown table htable hne hne'
      · exact hsame own hown hne hne'
    · rcases htable with htable | rfl
      · exact Table.same_symm (hnodup.1 table htable) hnodup.2 (hsame table htable hne' hne)
      · exact Table.same_refl hnodup.2

end Parameters

end RequestQuery
