import RequestQuery.Order
import Mathlib.Data.List.Basic

/-!
# Orders are read as they are written

The texts that are read as orders are the texts that orders are written as. Three separators divide a
text on three levels, so a name may hold any character but these. What is not written by any order is
refused, and always with the same code.
-/

namespace RequestQuery

namespace Direction

theorem ofName?_eq_some {name : String} {direction : Direction} :
    ofName? name = some direction ↔ name = direction.name := by
  constructor
  · intro h
    unfold ofName? at h
    split_ifs at h with hasc hdesc hrandom htopflop <;> cases h <;> assumption
  · rintro rfl
    exact ofName?_name direction

theorem colon_not_mem_name (direction : Direction) : ':' ∉ direction.name.toList := by
  cases direction <;> decide

theorem comma_not_mem_name (direction : Direction) : ',' ∉ direction.name.toList := by
  cases direction <;> decide

end Direction

namespace OrderKey

/-- No segment holds a character. -/
def Avoids (separator : Char) (key : OrderKey) : Prop :=
  ∀ segment ∈ key.path, separator ∉ segment.toList

/-- An entry that can be told apart into its segments and its direction. -/
structure Legible (key : OrderKey) : Prop where
  segments : key.path ≠ []
  nonempty : "" ∉ key.path
  point : key.Avoids '.'
  colon : key.Avoids ':'

def pathChars (key : OrderKey) : List Char := ['.'].intercalate (key.path.map String.toList)

def chars (key : OrderKey) : List Char := key.pathChars ++ ':' :: key.direction.name.toList

theorem toList_display (key : OrderKey) : key.display.toList = key.chars := by
  simp [display, chars, pathChars, pathText, String.toList_intercalate]

theorem mem_pathChars {key : OrderKey} {c : Char} (hpoint : c ≠ '.') :
    c ∈ key.pathChars ↔ ∃ segment ∈ key.path, c ∈ segment.toList := by
  unfold pathChars
  induction key.path with
  | nil => simp
  | cons segment rest ih =>
      cases rest with
      | nil => simp [List.intercalate]
      | cons next rest =>
          rw [List.map_cons, List.map_cons, List.intercalate_cons_cons, List.mem_append,
            List.mem_append, ← List.map_cons, ih]
          simp [hpoint]

theorem avoids_iff {key : OrderKey} {separator : Char} (hpoint : separator ≠ '.') :
    key.Avoids separator ↔ separator ∉ key.pathChars := by
  rw [mem_pathChars hpoint]
  simp [Avoids]

theorem eq_chars_of_read {entry : List Char} {key : OrderKey} (h : read entry = .ok key) :
    key.Legible ∧ entry = key.chars := by
  unfold read at h
  split at h
  next path direction hparts =>
    have hentry := intercalate_splitAtChar ':' entry
    have hcolon : ':' ∉ path := not_mem_of_mem_splitAtChar (hparts ▸ List.mem_cons_self)
    rw [hparts] at hentry
    simp only at h
    split_ifs at h with hpath hempty
    split at h <;> cases h
    next direction' hdirection =>
      rw [Direction.ofName?_eq_some] at hdirection
      have hsegments : ((splitAtChar '.' path).map String.ofList).map String.toList =
          splitAtChar '.' path := by simp [Function.comp_def]
      have hchars : pathChars ⟨(splitAtChar '.' path).map String.ofList, direction'⟩ = path := by
        rw [pathChars, hsegments]
        exact intercalate_splitAtChar '.' path
      refine ⟨⟨by simp [splitAtChar_ne_nil], ?_, ?_, ?_⟩, ?_⟩
      · simpa using hempty
      · intro segment hsegment
        obtain ⟨part, hpart, rfl⟩ := List.mem_map.mp hsegment
        rw [String.toList_ofList]
        exact not_mem_of_mem_splitAtChar hpart
      · rwa [avoids_iff (by decide), hchars]
      · rw [chars, hchars, ← hdirection, String.toList_ofList, ← hentry]
        simp [List.intercalate]
  next => cases h
  next => cases h
  next => cases h

theorem read_chars {key : OrderKey} (h : key.Legible) : read key.chars = .ok key := by
  have hne : key.path.map String.toList ≠ [] := by simpa using h.segments
  have hsegments : splitAtChar '.' key.pathChars = key.path.map String.toList :=
    splitAtChar_intercalate hne (List.forall_mem_map.mpr h.point)
  have hparts : splitAtChar ':' key.chars = [key.pathChars, key.direction.name.toList] := by
    rw [chars, splitAtChar_append_cons ((avoids_iff (by decide)).mp h.colon),
      splitAtChar_of_not_mem key.direction.colon_not_mem_name]
  have hempty : [] ∉ key.path.map String.toList := by simpa using h.nonempty
  have hpath : key.pathChars ≠ [] := by
    intro hnil
    rw [hnil] at hsegments
    exact hempty (hsegments ▸ List.mem_singleton_self [])
  have hback : (key.path.map String.toList).map String.ofList = key.path := by
    simp [Function.comp_def]
  simp only [read, hparts, hsegments, hpath, List.contains_eq_mem, hempty, hback,
    String.ofList_toList, Direction.ofName?_name, decide_false, Bool.false_eq_true, if_false]

theorem read_eq_ok_iff {entry : List Char} {key : OrderKey} :
    read entry = .ok key ↔ key.Legible ∧ entry = key.chars := by
  constructor
  · exact eq_chars_of_read
  · rintro ⟨hlegible, rfl⟩
    exact read_chars hlegible

theorem readAll_eq_ok_iff {entries : List (List Char)} {keys : List OrderKey} :
    readAll entries = .ok keys ↔ (∀ key ∈ keys, key.Legible) ∧ entries = keys.map chars := by
  induction entries generalizing keys with
  | nil => cases keys <;> simp [readAll]
  | cons entry rest ih =>
      rw [readAll]
      constructor
      · intro h
        split at h
        next key hkey =>
          split at h <;> cases h
          next more hmore =>
            obtain ⟨hlegible, rfl⟩ := read_eq_ok_iff.mp hkey
            obtain ⟨hrest, rfl⟩ := ih.mp hmore
            exact ⟨List.forall_mem_cons.mpr ⟨hlegible, hrest⟩, rfl⟩
        next => cases h
      · rintro ⟨hlegible, hentries⟩
        cases keys with
        | nil => cases hentries
        | cons key keys =>
            rw [List.forall_mem_cons] at hlegible
            obtain ⟨rfl, rfl⟩ := List.cons.inj hentries
            rw [read_chars hlegible.1, ih.mpr ⟨hlegible.2, rfl⟩]

end OrderKey

namespace Order

def text (keys : Order) : String := String.intercalate "," (keys.map OrderKey.display)

/-- An order that can be written: names without separators, and a random direction alone. -/
structure Writable (keys : Order) : Prop where
  entries : keys ≠ []
  paths : ∀ key ∈ keys, key.path ≠ []
  segments : ∀ key ∈ keys, ∀ segment ∈ key.path, segment ≠ "" ∧
    ',' ∉ segment.toList ∧ ':' ∉ segment.toList ∧ '.' ∉ segment.toList
  random : ∀ key ∈ keys, key.direction = .random → keys.length = 1

theorem toList_text (keys : Order) :
    (text keys).toList = [','].intercalate (keys.map OrderKey.chars) := by
  simp [text, String.toList_intercalate, Function.comp_def, OrderKey.toList_display]

theorem comma_not_mem_chars {key : OrderKey} : ',' ∉ key.chars ↔ key.Avoids ',' := by
  rw [OrderKey.avoids_iff (by decide), OrderKey.chars]
  simp [key.direction.comma_not_mem_name]

theorem writable_iff {keys : Order} :
    keys.Writable ↔ keys ≠ [] ∧ (∀ key ∈ keys, key.Legible ∧ key.Avoids ',') ∧
      ¬(1 < keys.length ∧ keys.any (fun key => key.direction == .random) = true) := by
  have hrandom : keys.any (fun key => key.direction == .random) = true ↔
      ∃ key ∈ keys, key.direction = .random := by simp
  rw [hrandom]
  constructor
  · intro h
    refine ⟨h.entries, fun key hkey => ?_, ?_⟩
    · have hsegments := h.segments key hkey
      exact ⟨⟨h.paths key hkey, fun hempty => (hsegments "" hempty).1 rfl,
        fun s hs => (hsegments s hs).2.2.2, fun s hs => (hsegments s hs).2.2.1⟩,
        fun s hs => (hsegments s hs).2.1⟩
    · rintro ⟨hmany, key, hkey, hdirection⟩
      have hone := h.random key hkey hdirection
      omega
  · rintro ⟨hne, hkeys, hrandom⟩
    refine ⟨hne, fun key hkey => (hkeys key hkey).1.segments, ?_, ?_⟩
    · intro key hkey segment hsegment
      obtain ⟨hlegible, hcomma⟩ := hkeys key hkey
      exact ⟨fun hempty => hlegible.nonempty (hempty ▸ hsegment), hcomma segment hsegment,
        hlegible.colon segment hsegment, hlegible.point segment hsegment⟩
    · intro key hkey hdirection
      have hpos := List.length_pos_iff.mpr hne
      by_contra hone
      exact hrandom ⟨by omega, key, hkey, hdirection⟩

theorem parseFault_eq_ok_iff {source : String} {keys : Order} :
    parseFault source = .ok keys ↔ [] ∉ splitAtChar ',' source.toList ∧
      OrderKey.readAll (splitAtChar ',' source.toList) = .ok keys ∧
      ¬(1 < keys.length ∧ keys.any (fun key => key.direction == .random) = true) := by
  unfold parseFault
  simp only [List.contains_eq_mem, decide_eq_true_eq]
  split_ifs with hempty
  · simp [hempty]
  · cases OrderKey.readAll (splitAtChar ',' source.toList) with
    | error fault => simp
    | ok read =>
        simp only [hempty, not_false_eq_true, true_and, Except.ok.injEq]
        split_ifs with hrandom
        · refine iff_of_false (by simp) ?_
          rintro ⟨rfl, hnot⟩
          exact hnot hrandom
        · constructor
          · intro h
            cases h
            exact ⟨rfl, hrandom⟩
          · rintro ⟨rfl, -⟩
            rfl

theorem written_iff {source : String} {keys : Order} :
    parseFault source = .ok keys ↔ keys.Writable ∧ text keys = source := by
  rw [parseFault_eq_ok_iff, OrderKey.readAll_eq_ok_iff, writable_iff, ← String.toList_inj,
    toList_text]
  constructor
  · rintro ⟨-, ⟨hlegible, hentries⟩, hrandom⟩
    refine ⟨⟨?_, fun key hkey => ⟨hlegible key hkey, ?_⟩, hrandom⟩, ?_⟩
    · rintro rfl
      exact splitAtChar_ne_nil ',' source.toList hentries
    · have hmem : key.chars ∈ splitAtChar ',' source.toList :=
        hentries ▸ List.mem_map_of_mem hkey
      exact comma_not_mem_chars.mp (not_mem_of_mem_splitAtChar hmem)
    · rw [← hentries]
      exact intercalate_splitAtChar ',' source.toList
  · rintro ⟨⟨hne, hkeys, hrandom⟩, hsource⟩
    have hentries : splitAtChar ',' source.toList = keys.map OrderKey.chars := by
      rw [← hsource]
      apply splitAtChar_intercalate
      · simpa using hne
      · exact List.forall_mem_map.mpr fun key hkey => comma_not_mem_chars.mpr (hkeys key hkey).2
    rw [hentries]
    exact ⟨by simp [OrderKey.chars], ⟨fun key hkey => (hkeys key hkey).1, rfl⟩, hrandom⟩

/-- A text is read as an order exactly if the order can be written and this is its text. Any other text is
refused as no valid order. -/
theorem parse_iff_written (source : String) :
    (∀ keys, parse source = .ok keys ↔ keys.Writable ∧ text keys = source) ∧
    ((∃ keys : Order, keys.Writable ∧ text keys = source) ∨
      ∃ error, parse source = .error error ∧ error.code = .invalidOrder) := by
  unfold parse
  cases hfault : parseFault source with
  | ok read =>
      refine ⟨fun keys => ?_, .inl ⟨read, written_iff.mp hfault⟩⟩
      rw [← written_iff, hfault]
      simp
  | error fault =>
      refine ⟨fun keys => ?_, .inr ⟨fault.toError, rfl, rfl⟩⟩
      rw [← written_iff, hfault]
      simp

example : Order.parse "größe.in cm:desc,a:topflop" =
    .ok [⟨["größe", "in cm"], .desc⟩, ⟨["a"], .topflop⟩] := by decide +kernel

end Order

end RequestQuery
