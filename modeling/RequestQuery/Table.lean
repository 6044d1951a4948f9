/-!
# Tables in insertion order

A table is a list of keyed entries. Putting a key again keeps its place and changes its value.
-/

namespace RequestQuery

/-- Entries in the order in which their keys were first put. -/
abbrev Table (β : Type) := List (String × β)

namespace Table

variable {β : Type}

def keys (table : Table β) : List String := table.map Prod.fst

/-- The value of the first entry with a key. -/
def find? : Table β → String → Option β
  | [], _ => none
  | (k, v) :: rest, key => if k = key then some v else find? rest key

def has (table : Table β) (key : String) : Bool := (table.find? key).isSome

/-- Give a key a value: in its place if the key is there, at the end if not. -/
def put : Table β → String → β → Table β
  | [], key, value => [(key, value)]
  | (k, v) :: rest, key, value =>
      if k = key then (k, value) :: rest else (k, v) :: put rest key value

def putAll (table : Table β) (entries : List (String × β)) : Table β :=
  entries.foldl (fun t e => t.put e.1 e.2) table

/-- Equality of tables as maps: as many entries, and each entry of one found in the other. -/
def same [BEq β] (left right : Table β) : Bool :=
  left.length == right.length && left.all fun e => right.find? e.1 == some e.2

theorem keys_put_of_mem {table : Table β} {key : String} (value : β) (h : key ∈ table.keys) :
    (table.put key value).keys = table.keys := by
  induction table with
  | nil => simp [keys] at h
  | cons e rest ih =>
      obtain ⟨k, v⟩ := e
      by_cases hk : k = key
      · simp [put, hk, keys]
      · simp only [keys, List.map_cons, List.mem_cons] at h
        have hr : key ∈ keys rest := h.resolve_left fun h => hk h.symm
        simpa [put, hk, keys] using ih hr

theorem keys_put_of_not_mem {table : Table β} {key : String} (value : β) (h : key ∉ table.keys) :
    (table.put key value).keys = table.keys ++ [key] := by
  induction table with
  | nil => rfl
  | cons e rest ih =>
      obtain ⟨k, v⟩ := e
      simp only [keys, List.map_cons, List.mem_cons, not_or] at h
      have hk : ¬k = key := fun hk => h.1 hk.symm
      simpa [put, hk, keys] using ih h.2

theorem find?_put (table : Table β) (key other : String) (value : β) :
    (table.put key value).find? other = if other = key then some value else table.find? other := by
  induction table with
  | nil => by_cases h : key = other <;> simp [put, find?, h, eq_comm]
  | cons e rest ih =>
      obtain ⟨k, v⟩ := e
      by_cases hk : k = key
      · subst hk
        by_cases ho : k = other
        · subst ho; simp [put, find?]
        · simp [put, find?, ho, Ne.symm ho]
      · by_cases ho : k = other
        · subst ho; simp [put, find?, hk]
        · simp [put, find?, hk, ho, ih]

theorem find?_eq_none_iff {table : Table β} {key : String} :
    table.find? key = none ↔ key ∉ table.keys := by
  induction table with
  | nil => simp [find?, keys]
  | cons e rest ih =>
      obtain ⟨k, v⟩ := e
      by_cases hk : k = key
      · simp [find?, keys, hk]
      · simpa [find?, keys, hk, Ne.symm hk] using ih

theorem has_eq_true_iff {table : Table β} {key : String} :
    table.has key = true ↔ key ∈ table.keys := by
  rw [has, Option.isSome_iff_ne_none, ne_eq, find?_eq_none_iff, Classical.not_not]

/-- Putting never repeats a key. -/
theorem nodup_keys_put {table : Table β} (key : String) (value : β) (h : table.keys.Nodup) :
    (table.put key value).keys.Nodup := by
  by_cases hk : key ∈ table.keys
  · rwa [keys_put_of_mem value hk]
  · rw [keys_put_of_not_mem value hk, List.nodup_append]
    refine ⟨h, by simp, fun a ha b hb => ?_⟩
    rw [List.mem_singleton.1 hb]
    exact fun hab => hk (hab ▸ ha)

end Table

end RequestQuery
