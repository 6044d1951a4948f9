import RequestQuery.Select.Node
import Mathlib.Data.List.Perm.Subperm
import Mathlib.Data.List.Nodup

/-!
# Equality of parameters

Values are compared with decimals as numbers, which is coarser than being the same value. It is an
equivalence all the same, and so is the equality of tables of values in which no key is repeated.
-/

namespace RequestQuery

section Lists

variable {α : Type} [BEq α]

private theorem list_beq_symm [PartialEquivBEq α] {as bs : List α} (h : (as == bs) = true) :
    (bs == as) = true := by
  induction as generalizing bs with
  | nil =>
      cases bs with
      | nil => exact h
      | cons b bs => simp at h
  | cons a as ih =>
      cases bs with
      | nil => simp at h
      | cons b bs =>
          rw [List.cons_beq_cons, Bool.and_eq_true] at h ⊢
          exact ⟨BEq.symm h.1, ih h.2⟩

private theorem list_beq_trans [PartialEquivBEq α] {as bs cs : List α} (h : (as == bs) = true)
    (h' : (bs == cs) = true) : (as == cs) = true := by
  induction as generalizing bs cs with
  | nil =>
      cases bs with
      | nil => exact h'
      | cons b bs => simp at h
  | cons a as ih =>
      cases bs with
      | nil => simp at h
      | cons b bs =>
          cases cs with
          | nil => simp at h'
          | cons c cs =>
              rw [List.cons_beq_cons, Bool.and_eq_true] at h h' ⊢
              exact ⟨BEq.trans h.1 h'.1, ih h.2 h'.2⟩

instance listEquivBEq [EquivBEq α] : EquivBEq (List α) where
  rfl := BEq.rfl
  symm := list_beq_symm
  trans := list_beq_trans

end Lists

/-- An equality that holds of different values only if both come from an equivalence by `f`. -/
private theorem equivBEq_of_image {α β : Type} [BEq α] [BEq β] [EquivBEq β] (f : β → α)
    (hf : Function.Injective f)
    (h : ∀ a b : α, (a == b) = true ↔ a = b ∨ ∃ x y, a = f x ∧ b = f y ∧ (x == y) = true) :
    EquivBEq α where
  rfl := (h _ _).mpr (.inl rfl)
  symm {a b} hab := by
    rcases (h a b).mp hab with rfl | ⟨x, y, rfl, rfl, hxy⟩
    · exact hab
    · exact (h _ _).mpr (.inr ⟨y, x, rfl, rfl, BEq.symm hxy⟩)
  trans {a b c} hab hbc := by
    rcases (h a b).mp hab with rfl | ⟨x, y, rfl, rfl, hxy⟩
    · exact hbc
    · rcases (h (f y) c).mp hbc with rfl | ⟨y', z, hy, rfl, hyz⟩
      · exact hab
      · cases hf hy
        exact (h _ _).mpr (.inr ⟨x, z, rfl, rfl, BEq.trans hxy hyz⟩)

namespace Decimal

theorem sameNumber_iff {a b : Decimal} :
    a.sameNumber b = true ↔ (a.mantissa = 0 ∧ b.mantissa = 0) ∨
      (a.negative = b.negative ∧
        a.mantissa * Nat.pow 10 b.scale = b.mantissa * Nat.pow 10 a.scale) := by
  simp [sameNumber]

private theorem mantissa_eq_zero {a b : Decimal} (h : a.sameNumber b = true) (ha : a.mantissa = 0) :
    b.mantissa = 0 := by
  rcases sameNumber_iff.mp h with hzero | ⟨-, hcross⟩
  · exact hzero.2
  · have hpos : 0 < Nat.pow 10 a.scale := Nat.pow_pos (by decide)
    rw [ha, Nat.zero_mul] at hcross
    exact (Nat.mul_eq_zero.mp hcross.symm).resolve_right (by omega)

private theorem sameNumber_symm {a b : Decimal} (h : a.sameNumber b = true) :
    b.sameNumber a = true := by
  rw [sameNumber_iff] at h ⊢
  rcases h with hzero | ⟨hsign, hcross⟩
  · exact .inl hzero.symm
  · exact .inr ⟨hsign.symm, hcross.symm⟩

private theorem sameNumber_trans {a b c : Decimal} (h : a.sameNumber b = true)
    (h' : b.sameNumber c = true) : a.sameNumber c = true := by
  by_cases hb : b.mantissa = 0
  · have ha := mantissa_eq_zero (sameNumber_symm h) hb
    have hc := mantissa_eq_zero h' hb
    exact sameNumber_iff.mpr (.inl ⟨ha, hc⟩)
  · rcases sameNumber_iff.mp h with hzero | ⟨hsign, hcross⟩
    · exact absurd hzero.2 hb
    · rcases sameNumber_iff.mp h' with hzero' | ⟨hsign', hcross'⟩
      · exact absurd hzero'.1 hb
      · refine sameNumber_iff.mpr (.inr ⟨hsign.trans hsign', ?_⟩)
        have hpos : 0 < Nat.pow 10 b.scale := Nat.pow_pos (by decide)
        apply Nat.eq_of_mul_eq_mul_right hpos
        calc a.mantissa * Nat.pow 10 c.scale * Nat.pow 10 b.scale
            = a.mantissa * Nat.pow 10 b.scale * Nat.pow 10 c.scale := Nat.mul_right_comm ..
          _ = b.mantissa * Nat.pow 10 a.scale * Nat.pow 10 c.scale := by rw [hcross]
          _ = b.mantissa * Nat.pow 10 c.scale * Nat.pow 10 a.scale := Nat.mul_right_comm ..
          _ = c.mantissa * Nat.pow 10 b.scale * Nat.pow 10 a.scale := by rw [hcross']
          _ = c.mantissa * Nat.pow 10 a.scale * Nat.pow 10 b.scale := Nat.mul_right_comm ..

instance : EquivBEq Decimal where
  rfl := sameNumber_iff.mpr (.inr ⟨rfl, rfl⟩)
  symm := sameNumber_symm
  trans := sameNumber_trans

end Decimal

/-- Literals that are not the same are equal only as decimals. -/
private theorem Literal.beq_iff {a b : Literal} :
    (a == b) = true ↔ a = b ∨ ∃ d e, a = .decimal d ∧ b = .decimal e ∧ (d == e) = true := by
  constructor
  · intro h
    cases a with
    | decimal d =>
        cases b with
        | decimal e => exact .inr ⟨d, e, rfl, rfl, h⟩
        | _ => cases h
    | null => cases b <;> first | exact .inl rfl | cases h
    | boolean x | integer x | text x =>
        cases b <;> first | exact .inl (congrArg _ (eq_of_beq h)) | cases h
  · rintro (rfl | ⟨d, e, rfl, rfl, h⟩)
    · cases a with
      | null => rfl
      | decimal d => exact (BEq.rfl : (d == d) = true)
      | boolean x => exact (BEq.rfl : (x == x) = true)
      | integer x => exact (BEq.rfl : (x == x) = true)
      | text x => exact (BEq.rfl : (x == x) = true)
    · exact h

instance : EquivBEq Literal :=
  equivBEq_of_image .decimal (fun _ _ h => Literal.decimal.inj h) fun _ _ => Literal.beq_iff

instance : EquivBEq Value where
  rfl {a} := by
    cases a with
    | single x => exact (BEq.rfl : (x == x) = true)
    | set xs => exact (BEq.rfl : (xs == xs) = true)
    | range x y => exact Bool.and_eq_true_iff.mpr ⟨BEq.rfl, BEq.rfl⟩
  symm {a b} h := by
    cases a <;> cases b <;> try cases h
    case single.single x y => exact (BEq.symm h : (y == x) = true)
    case set.set xs ys => exact (BEq.symm h : (ys == xs) = true)
    case range.range x y z w =>
      have hparts := Bool.and_eq_true_iff.mp h
      exact Bool.and_eq_true_iff.mpr ⟨BEq.symm hparts.1, BEq.symm hparts.2⟩
  trans {a b c} h h' := by
    cases a <;> cases b <;> (try cases h) <;> cases c <;> try cases h'
    case single.single.single x y z => exact (BEq.trans h h' : (x == z) = true)
    case set.set.set xs ys zs => exact (BEq.trans h h' : (xs == zs) = true)
    case range.range.range =>
      have hparts := Bool.and_eq_true_iff.mp h
      have hparts' := Bool.and_eq_true_iff.mp h'
      exact Bool.and_eq_true_iff.mpr
        ⟨BEq.trans hparts.1 hparts'.1, BEq.trans hparts.2 hparts'.2⟩

theorem Comparison.beq_iff {a b : Comparison} :
    (a == b) = true ↔ a.path = b.path ∧ a.operator = b.operator ∧ (a.value == b.value) = true := by
  change (a.path == b.path && a.operator == b.operator && a.value == b.value) = true ↔ _
  simp [and_assoc]

instance : EquivBEq Comparison where
  rfl := Comparison.beq_iff.mpr ⟨rfl, rfl, BEq.rfl⟩
  symm h := by
    obtain ⟨hpath, hoperator, hvalue⟩ := Comparison.beq_iff.mp h
    exact Comparison.beq_iff.mpr ⟨hpath.symm, hoperator.symm, BEq.symm hvalue⟩
  trans h h' := by
    obtain ⟨hpath, hoperator, hvalue⟩ := Comparison.beq_iff.mp h
    obtain ⟨hpath', hoperator', hvalue'⟩ := Comparison.beq_iff.mp h'
    exact Comparison.beq_iff.mpr
      ⟨hpath.trans hpath', hoperator.trans hoperator', BEq.trans hvalue hvalue'⟩

instance : EquivBEq Filter where
  rfl {a} := (BEq.rfl : (a.alternatives == a.alternatives) = true)
  symm {a b} h := (BEq.symm h : (b.alternatives == a.alternatives) = true)
  trans {a _ c} h h' := (BEq.trans h h' : (a.alternatives == c.alternatives) = true)

private theorem ParameterValue.beq_iff {a b : ParameterValue} :
    (a == b) = true ↔ a = b ∨ ∃ f g, a = .filter f ∧ b = .filter g ∧ (f == g) = true := by
  constructor
  · intro h
    cases a with
    | filter f =>
        cases b with
        | filter g => exact .inr ⟨f, g, rfl, rfl, h⟩
        | _ => cases h
    | order x | limit x | page x | id x | search x | raw x =>
        cases b <;> first | exact .inl (congrArg _ (eq_of_beq h)) | cases h
  · rintro (rfl | ⟨f, g, rfl, rfl, h⟩)
    · cases a with
      | filter f => exact (BEq.rfl : (f == f) = true)
      | order x => exact (BEq.rfl : (x == x) = true)
      | limit x => exact (BEq.rfl : (x == x) = true)
      | page x => exact (BEq.rfl : (x == x) = true)
      | id x => exact (BEq.rfl : (x == x) = true)
      | search x => exact (BEq.rfl : (x == x) = true)
      | raw x => exact (BEq.rfl : (x == x) = true)
    · exact h

instance : EquivBEq ParameterValue :=
  equivBEq_of_image .filter (fun _ _ h => ParameterValue.filter.inj h)
    fun _ _ => ParameterValue.beq_iff

namespace Table

variable {β : Type}

theorem mem_of_find?_eq_some {table : Table β} {key : String} {value : β}
    (h : table.find? key = some value) : (key, value) ∈ table := by
  induction table with
  | nil => cases h
  | cons e rest ih =>
      rw [find?] at h
      by_cases hk : e.1 = key
      · rw [if_pos hk, Option.some.injEq] at h
        rw [← hk, ← h]
        exact List.mem_cons_self
      · rw [if_neg hk] at h
        exact List.mem_cons_of_mem _ (ih h)

theorem find?_eq_some_of_mem {table : Table β} (hnodup : table.keys.Nodup) {e : String × β}
    (h : e ∈ table) : table.find? e.1 = some e.2 := by
  induction table with
  | nil => cases h
  | cons e' rest ih =>
      rw [keys, List.map_cons, List.nodup_cons] at hnodup
      rw [find?]
      rcases List.mem_cons.mp h with rfl | hrest
      · rw [if_pos rfl]
      · have hne : e'.1 ≠ e.1 := by
          intro heq
          exact hnodup.1 (heq ▸ List.mem_map_of_mem hrest)
        rw [if_neg hne]
        exact ih hnodup.2 hrest

theorem find?_append (front rest : Table β) (key : String) :
    find? (front ++ rest) key = (front.find? key).or (rest.find? key) := by
  induction front with
  | nil => rfl
  | cons e front ih =>
      rw [List.cons_append, find?, find?, ih]
      by_cases hk : e.1 = key
      · rw [if_pos hk, if_pos hk, Option.some_or]
      · rw [if_neg hk, if_neg hk]

theorem keys_map {γ : Type} (f : β → γ) (table : Table β) :
    keys (table.map fun e => (e.1, f e.2)) = table.keys := by
  simp [keys]

theorem find?_map {γ : Type} (f : β → γ) (table : Table β) (key : String) :
    find? (table.map fun e => (e.1, f e.2)) key = (table.find? key).map f := by
  induction table with
  | nil => rfl
  | cons e rest ih =>
      rw [List.map_cons, find?, find?, ih]
      by_cases hk : e.1 = key
      · rw [if_pos hk, if_pos hk, Option.map_some]
      · rw [if_neg hk, if_neg hk]

theorem find?_perm {table other : Table β} (hnodup : table.keys.Nodup) (hperm : other.Perm table)
    (key : String) : other.find? key = table.find? key := by
  have hnodup' : other.keys.Nodup := (hperm.map Prod.fst).nodup_iff.mpr hnodup
  cases hfind : table.find? key with
  | some value =>
      have hmem := hperm.mem_iff.mpr (mem_of_find?_eq_some hfind)
      exact find?_eq_some_of_mem hnodup' hmem
  | none =>
      rw [find?_eq_none_iff] at hfind ⊢
      intro hmem
      exact hfind ((hperm.map Prod.fst).mem_iff.mp hmem)

theorem put_of_not_mem {table : Table β} {key : String} (value : β) (h : key ∉ table.keys) :
    table.put key value = table ++ [(key, value)] := by
  induction table with
  | nil => rfl
  | cons e rest ih =>
      rw [keys, List.map_cons, List.mem_cons, not_or] at h
      rw [put, if_neg (Ne.symm h.1), ih h.2, List.cons_append]

theorem not_mem_keys_of_nodup {front rest : Table β} {e : String × β}
    (h : (keys (front ++ e :: rest)).Nodup) : e.1 ∉ front.keys := by
  rw [keys, List.map_append, List.nodup_append] at h
  exact fun hmem => h.2.2 _ hmem _ List.mem_cons_self rfl

theorem putAll_of_nodup {table : Table β} {entries : Table β}
    (h : (keys (table ++ entries)).Nodup) : table.putAll entries = table ++ entries := by
  induction entries generalizing table with
  | nil => exact (List.append_nil table).symm
  | cons e rest ih =>
      have hnew : e.1 ∉ table.keys := not_mem_keys_of_nodup h
      rw [List.append_cons] at h ⊢
      rw [← put_of_not_mem e.2 hnew] at h ⊢
      exact ih h

theorem put_of_find? {table : Table β} {key : String} {value : β}
    (h : table.find? key = some value) : table.put key value = table := by
  induction table with
  | nil => cases h
  | cons e rest ih =>
      rw [find?] at h
      rw [put]
      by_cases hk : e.1 = key
      · rw [if_pos hk, Option.some.injEq] at h
        rw [if_pos hk, ← h]
      · rw [if_neg hk] at h
        rw [if_neg hk, ih h]

/-- As many entries and all keys of one in the other, so both have the same keys. -/
theorem matched_iff {r : β → β → Prop} {left right : Table β} (hleft : left.keys.Nodup)
    (hright : right.keys.Nodup) :
    (left.length = right.length ∧ ∀ e ∈ left, ∃ value, right.find? e.1 = some value ∧ r e.2 value) ↔
      ∀ key, Option.Rel r (left.find? key) (right.find? key) := by
  constructor
  · rintro ⟨hlength, hfound⟩ key
    have hsubset : left.keys ⊆ right.keys := by
      intro key hkey
      obtain ⟨e, he, rfl⟩ := List.mem_map.mp hkey
      obtain ⟨value, hfind, -⟩ := hfound e he
      exact List.mem_map.mpr ⟨_, mem_of_find?_eq_some hfind, rfl⟩
    have hlengths : right.keys.length ≤ left.keys.length := by
      simp [keys, hlength]
    have hperm : left.keys.Perm right.keys :=
      (List.subperm_of_subset hleft hsubset).perm_of_length_le hlengths
    cases hfind : left.find? key with
    | none =>
        have hkey : key ∉ right.keys := by
          rw [← hperm.mem_iff]
          exact find?_eq_none_iff.mp hfind
        rw [find?_eq_none_iff.mpr hkey]
        exact .none
    | some value =>
        obtain ⟨value', hfind', hr⟩ := hfound _ (mem_of_find?_eq_some hfind)
        rw [hfind']
        exact .some hr
  · intro h
    have hkeys : ∀ key, key ∈ left.keys ↔ key ∈ right.keys := by
      intro key
      rw [← has_eq_true_iff, ← has_eq_true_iff, has, has]
      have hrel := h key
      generalize left.find? key = own, right.find? key = other at hrel ⊢
      cases hrel <;> rfl
    have hperm : left.keys.Perm right.keys :=
      (List.perm_ext_iff_of_nodup hleft hright).mpr hkeys
    refine ⟨by simpa [keys] using hperm.length_eq, fun e he => ?_⟩
    have hrel := h e.1
    rw [find?_eq_some_of_mem hleft he] at hrel
    cases hfind : right.find? e.1 with
    | none =>
        rw [hfind] at hrel
        cases hrel
    | some value =>
        rw [hfind] at hrel
        cases hrel with
        | some hr => exact ⟨value, rfl, hr⟩

variable [BEq β]

theorem same_iff {left right : Table β} :
    same left right = true ↔ left.length = right.length ∧
      ∀ e ∈ left, ∃ value, right.find? e.1 = some value ∧ (value == e.2) = true := by
  rw [same, Bool.and_eq_true, List.all_eq_true, beq_iff_eq]
  refine and_congr_right fun _ => forall_congr' fun e => imp_congr_right fun _ => ?_
  cases right.find? e.1 with
  | none => simp
  | some value => simp

theorem same_refl [ReflBEq β] {table : Table β} (hnodup : table.keys.Nodup) :
    same table table = true := by
  rw [same_iff]
  exact ⟨rfl, fun e he => ⟨e.2, find?_eq_some_of_mem hnodup he, BEq.rfl⟩⟩

theorem same_trans [PartialEquivBEq β] {left mid right : Table β} (h : same left mid = true)
    (h' : same mid right = true) : same left right = true := by
  rw [same_iff] at h h' ⊢
  refine ⟨h.1.trans h'.1, fun e he => ?_⟩
  obtain ⟨value, hfind, hvalue⟩ := h.2 e he
  obtain ⟨value', hfind', hvalue'⟩ := h'.2 _ (mem_of_find?_eq_some hfind)
  exact ⟨value', hfind', BEq.trans hvalue' hvalue⟩

theorem same_iff_rel {left right : Table β} (hleft : left.keys.Nodup)
    (hright : right.keys.Nodup) :
    same left right = true ↔ ∀ key, Option.Rel (fun own other => (other == own) = true)
      (left.find? key) (right.find? key) :=
  same_iff.trans (matched_iff (r := fun own other => (other == own) = true) hleft hright)

theorem same_symm [PartialEquivBEq β] {left right : Table β} (hleft : left.keys.Nodup)
    (hright : right.keys.Nodup) (h : same left right = true) : same right left = true := by
  rw [same_iff_rel hleft hright] at h
  rw [same_iff_rel hright hleft]
  intro key
  have hrel := h key
  generalize left.find? key = own, right.find? key = other at hrel ⊢
  cases hrel with
  | none => exact .none
  | some hvalue => exact .some (BEq.symm hvalue)

end Table

end RequestQuery
