import RequestQuery.Order
import RequestQuery.Paging
import RequestQuery.Proofs.Filter.Shape

/-!
# The wire form of filters, orders and limits

The wire form leaves out what kind of value it is of. A set and a range of two literals look the same,
and only the operator tells them apart, which it does for every filter that was read. A decimal is
rounded, so filters with decimals may have one wire form; without decimals they do not.
-/

namespace RequestQuery

theorem eq_of_map_eq {α β : Type} {f : α → β} {as bs : List α} (h : as.map f = bs.map f)
    (hmembers : ∀ a ∈ as, ∀ b ∈ bs, f a = f b → a = b) : as = bs := by
  induction as generalizing bs with
  | nil => exact (List.map_eq_nil_iff.mp h.symm).symm
  | cons a as ih =>
      cases bs with
      | nil => cases h
      | cons b bs =>
          obtain ⟨hhead, htail⟩ := List.cons.inj h
          have hrest := ih htail fun a' ha' b' hb' =>
            hmembers a' (List.mem_cons_of_mem _ ha') b' (List.mem_cons_of_mem _ hb')
          rw [hmembers a List.mem_cons_self b List.mem_cons_self hhead, hrest]

namespace Json

mutual
/-- No object in the document has a key twice. -/
def Distinct : Json → Prop
  | .array items => DistinctItems items
  | .object members => (Table.keys members).Nodup ∧ DistinctMembers members
  | .null | .bool _ | .number _ | .string _ => True

def DistinctItems : List Json → Prop
  | [] => True
  | item :: rest => item.Distinct ∧ DistinctItems rest

def DistinctMembers : List (String × Json) → Prop
  | [] => True
  | (_, value) :: rest => value.Distinct ∧ DistinctMembers rest
end

theorem distinct_array {items : List Json} :
    (Json.array items).Distinct ↔ ∀ item ∈ items, item.Distinct := by
  rw [Distinct]
  induction items with
  | nil => simp [DistinctItems]
  | cons item rest ih => rw [DistinctItems, List.forall_mem_cons, ih]

theorem distinct_object {members : Table Json} :
    (Json.object members).Distinct ↔ members.keys.Nodup ∧ ∀ e ∈ members, e.2.Distinct := by
  have hmembers : DistinctMembers members ↔ ∀ e ∈ members, e.2.Distinct := by
    induction members with
    | nil => simp [DistinctMembers]
    | cons e rest ih => rw [DistinctMembers, List.forall_mem_cons, ih]
  rw [Distinct, hmembers]

theorem distinct_strings (texts : List String) : (Json.strings texts).Distinct := by
  rw [strings, distinct_array, List.forall_mem_map]
  intro text _
  trivial

theorem strings_injective : Function.Injective Json.strings := by
  intro texts texts' h
  exact List.map_injective_iff.mpr (fun _ _ h => Json.string.inj h) (Json.array.inj h)

theorem nat_injective : Function.Injective Json.nat := by
  intro n n' h
  exact Int.ofNat.inj (JsonNumber.integer.inj (Json.number.inj h))

end Json

def Literal.isDecimal : Literal → Bool
  | .decimal _ => true
  | _ => false

/-- Whole numbers are never written like decimals, so one of the two need not be looked at. -/
theorem Literal.eq_of_toJson {a b : Literal} (ha : a.isDecimal = false)
    (h : a.toJson = b.toJson) : a = b := by
  cases a <;> cases b <;> simp_all [toJson, Json.int, isDecimal, Int64.toInt_inj]

theorem Literal.distinct_toJson (literal : Literal) : literal.toJson.Distinct := by
  cases literal <;> trivial

namespace Value

/-- The literals of a value, in order. -/
def literals : Value → List Literal
  | .single literal => [literal]
  | .set literals => literals
  | .range first last => [first, last]

def decimalFree (value : Value) : Bool := value.literals.all fun literal => !literal.isDecimal

/-- What the wire form does not say is whether the value is a range. -/
theorem eq_of_toJson {value value' : Value} (hplain : value.decimalFree = true)
    (hrange : value.isRange = value'.isRange) (h : value.toJson = value'.toJson) :
    value = value' := by
  have hliterals : ∀ items items' : List Literal, (∀ l ∈ items, l.isDecimal = false) →
      items.map Literal.toJson = items'.map Literal.toJson → items = items' := by
    intro items items' hitems hmap
    exact eq_of_map_eq hmap fun a ha b _ => Literal.eq_of_toJson (hitems a ha)
  have hdecimal : ∀ l ∈ value.literals, l.isDecimal = false := by
    simpa [decimalFree] using hplain
  cases value with
  | single literal =>
      cases value' with
      | single literal' => rw [Literal.eq_of_toJson (hdecimal literal List.mem_cons_self) h]
      | set literals' | range first' last' => cases literal <;> cases h
  | set literals =>
      cases value' with
      | single literal' => cases literal' <;> cases h
      | set literals' => rw [hliterals literals literals' hdecimal (Json.array.inj h)]
      | range first' last' => cases hrange
  | range first last =>
      cases value' with
      | single literal' => cases literal' <;> cases h
      | set literals' => cases hrange
      | range first' last' =>
          cases hliterals [first, last] [first', last'] hdecimal (Json.array.inj h)
          rfl

theorem distinct_toJson (value : Value) : value.toJson.Distinct := by
  cases value with
  | single literal => exact literal.distinct_toJson
  | set literals =>
      rw [toJson, Json.distinct_array, List.forall_mem_map]
      exact fun literal _ => literal.distinct_toJson
  | range first last =>
      rw [toJson, Json.distinct_array]
      simp [Literal.distinct_toJson]

end Value

theorem Operator.name_injective : Function.Injective Operator.name := by
  intro operator operator' h
  have hsome := ofName?_name operator
  rw [h, ofName?_name operator'] at hsome
  exact (Option.some.inj hsome).symm

namespace Comparison

/-- The operator tells whether the value is a range. -/
def Ranged (c : Comparison) : Prop := c.operator.isRangeOnly = c.value.isRange

theorem eq_of_toJson {c c' : Comparison} (hplain : c.value.decimalFree = true) (hc : c.Ranged)
    (hc' : c'.Ranged) (h : c.toJson = c'.toJson) : c = c' := by
  obtain ⟨path, operator, value⟩ := c
  obtain ⟨path', operator', value'⟩ := c'
  simp only [toJson, Json.object.injEq, List.cons.injEq, Prod.mk.injEq, Json.string.injEq,
    true_and, and_true] at h
  obtain ⟨hpath, hoperator, hvalue⟩ := h
  cases Json.strings_injective hpath
  cases Operator.name_injective hoperator
  cases Value.eq_of_toJson hplain (hc.symm.trans hc') hvalue
  rfl

theorem distinct_toJson (c : Comparison) : c.toJson.Distinct := by
  rw [toJson, Json.distinct_object]
  refine ⟨by simp [Table.keys], ?_⟩
  simp only [List.forall_mem_cons]
  exact ⟨Json.distinct_strings c.path, trivial, c.value.distinct_toJson, by simp⟩

end Comparison

namespace Filter

def decimalFree (filter : Filter) : Bool := filter.comparisons.all fun c => c.value.decimalFree

private theorem exists_resolve {settings : FilterSettings} {source : String} {filter : Filter}
    (h : parse source settings = .ok filter) {c : Comparison} (hc : c ∈ filter.comparisons) :
    ∃ raw, settings.operators.resolve raw = .ok c := by
  unfold parse at h
  split at h
  next tree _ =>
    obtain ⟨resolved, htraverse, rfl⟩ := normalize_eq_ok_iff.mp h
    obtain ⟨part, hpart, hmem⟩ := List.mem_flatten.mp hc
    have hleaf := (Formula.sublist_leaves_of_mem_alternatives hpart).subset hmem
    have hleaves : tree.leaves.map settings.operators.resolve = resolved.leaves.map .ok := by
      rw [← Formula.leaves_map, Formula.traverse_eq_ok_iff.mp htraverse, Formula.leaves_map]
    have hok : .ok c ∈ tree.leaves.map settings.operators.resolve :=
      hleaves ▸ List.mem_map_of_mem hleaf
    obtain ⟨raw, -, hraw⟩ := List.mem_map.mp hok
    exact ⟨raw, hraw⟩
  next => cases h

theorem ranged_of_parse {settings : FilterSettings} (hs : settings.Obtained) {source : String}
    {filter : Filter} (h : parse source settings = .ok filter) :
    ∀ c ∈ filter.comparisons, c.Ranged := by
  intro c hc
  obtain ⟨raw, hraw⟩ := exists_resolve h hc
  have hrange := (hs.reachable.lawful.resolve_eq_ok hraw).2.2.1
  exact Bool.eq_iff_iff.mpr hrange

theorem eq_of_toJson {filter filter' : Filter} (hplain : filter.decimalFree = true)
    (hranged : ∀ c ∈ filter.comparisons, c.Ranged) (hranged' : ∀ c ∈ filter'.comparisons, c.Ranged)
    (h : filter.toJson = filter'.toJson) : filter = filter' := by
  obtain ⟨parts⟩ := filter
  obtain ⟨parts'⟩ := filter'
  congr
  refine eq_of_map_eq (Json.array.inj h) fun part hpart part' hpart' hjson => ?_
  refine eq_of_map_eq (Json.array.inj hjson) fun c hc c' hc' => ?_
  have hmem : c ∈ comparisons ⟨parts⟩ := List.mem_flatten_of_mem hpart hc
  have hmem' : c' ∈ comparisons ⟨parts'⟩ := List.mem_flatten_of_mem hpart' hc'
  exact Comparison.eq_of_toJson (List.all_eq_true.mp hplain c hmem) (hranged c hmem)
    (hranged' c' hmem')

theorem distinct_toJson (filter : Filter) : filter.toJson.Distinct := by
  rw [toJson, Json.distinct_array, List.forall_mem_map]
  intro part _
  rw [Json.distinct_array, List.forall_mem_map]
  exact fun c _ => c.distinct_toJson

end Filter

theorem Direction.name_injective : Function.Injective Direction.name := by
  intro direction direction' h
  have hsome := ofName?_name direction
  rw [h, ofName?_name direction'] at hsome
  exact (Option.some.inj hsome).symm

theorem OrderKey.toJson_injective : Function.Injective OrderKey.toJson := by
  rintro ⟨path, direction⟩ ⟨path', direction'⟩ h
  simp only [toJson, Json.object.injEq, List.cons.injEq, Prod.mk.injEq, Json.string.injEq,
    true_and, and_true] at h
  cases Json.strings_injective h.1
  cases Direction.name_injective h.2
  rfl

theorem OrderKey.distinct_toJson (key : OrderKey) : key.toJson.Distinct := by
  rw [toJson, Json.distinct_object]
  refine ⟨by simp [Table.keys], ?_⟩
  simp only [List.forall_mem_cons]
  exact ⟨Json.distinct_strings key.path, trivial, by simp⟩

theorem Order.toJson_injective : Function.Injective Order.toJson := by
  intro order order' h
  exact OrderKey.toJson_injective.list_map (Json.array.inj h)

theorem Order.distinct_toJson (order : Order) : order.toJson.Distinct := by
  rw [toJson, Json.distinct_array, List.forall_mem_map]
  exact fun key _ => key.distinct_toJson

theorem Limit.toJson_injective : Function.Injective Limit.toJson := by
  intro limit limit' h
  cases limit <;> cases limit'
  · rfl
  · cases h
  · cases h
  · rw [Json.nat_injective h]

theorem Limit.distinct_toJson (limit : Limit) : limit.toJson.Distinct := by
  cases limit <;> trivial

end RequestQuery
