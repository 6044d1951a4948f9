import RequestQuery.Reading.Name
import Mathlib.Data.List.Basic

/-!
# What parsers read

Two views of a parser. `Reads` says that it takes a given text and leaves a given rest; there is one law
for each combinator, and a refusal where an alternative has to be passed over. The other way round,
a reading that is done is taken apart into the readings it was made of, and it took away the front of
the text it was given.
-/

namespace RequestQuery

namespace Parser

variable {α β : Type}

/-- From byte `offset` on, `text` is read as `value` in front of `rest`. -/
def Reads (p : Parser α) (offset : Nat) (text rest : List Char) (value : α) : Prop :=
  p ⟨offset, text ++ rest⟩ = .done value ⟨offset + byteLength text, rest⟩

/-- Nothing is read in front of `rest`, and another alternative may be tried. -/
def Refuses (p : Parser α) (offset : Nat) (rest : List Char) : Prop :=
  ∃ stop, p ⟨offset, rest⟩ = .refused stop

theorem Reads.unique {p : Parser α} {offset : Nat} {text text' rest rest' : List Char}
    {value value' : α} (h : Reads p offset text rest value)
    (h' : Reads p offset text' rest' value') (heq : text ++ rest = text' ++ rest') :
    value = value' ∧ text = text' ∧ rest = rest' := by
  unfold Reads at h h'
  rw [heq, h'] at h
  simp only [Reading.done.injEq, Cursor.mk.injEq] at h
  obtain ⟨hvalue, -, hrest⟩ := h
  subst hrest
  exact ⟨hvalue.symm, List.append_cancel_right heq, rfl⟩

theorem reads_pure (value : α) (offset : Nat) (rest : List Char) :
    Reads (pure value) offset [] rest value := by
  change Reading.done _ _ = _
  simp

theorem Reads.bind {p : Parser α} {f : α → Parser β} {offset : Nat} {first second rest : List Char}
    {a : α} {b : β} (hp : Reads p offset first (second ++ rest) a)
    (hf : Reads (f a) (offset + byteLength first) second rest b) :
    Reads (p >>= f) offset (first ++ second) rest b := by
  change Parser.bind p f _ = _
  rw [List.append_assoc, Parser.bind, hp]
  simp only
  rw [hf, byteLength_append, Nat.add_assoc]

theorem Reads.nil_bind {p : Parser α} {f : α → Parser β} {offset : Nat} {text rest : List Char}
    {a : α} {b : β} (hp : Reads p offset [] (text ++ rest) a) (hf : Reads (f a) offset text rest b) :
    Reads (p >>= f) offset text rest b :=
  Reads.bind hp hf

theorem Reads.bind_nil {p : Parser α} {f : α → Parser β} {offset : Nat} {text rest : List Char}
    {a : α} {b : β} (hp : Reads p offset text rest a)
    (hf : Reads (f a) (offset + byteLength text) [] rest b) :
    Reads (p >>= f) offset text rest b := by
  have h : Reads (p >>= f) offset (text ++ []) rest b := Reads.bind hp hf
  rwa [List.append_nil] at h

theorem Reads.bind_pure {p : Parser α} {f : α → β} {offset : Nat} {text rest : List Char} {a : α}
    (hp : Reads p offset text rest a) :
    Reads (p >>= fun a => pure (f a)) offset text rest (f a) :=
  hp.bind_nil (reads_pure ..)

theorem Refuses.bind {p : Parser α} {offset : Nat} {rest : List Char} (hp : Refuses p offset rest)
    (f : α → Parser β) : Refuses (p >>= f) offset rest := by
  obtain ⟨stop, hstop⟩ := hp
  refine ⟨stop, ?_⟩
  change Parser.bind p f _ = _
  rw [Parser.bind, hstop]

theorem Reads.bind_refuses {p : Parser α} {f : α → Parser β} {offset : Nat} {text rest : List Char}
    {a : α} (hp : Reads p offset text rest a)
    (hf : Refuses (f a) (offset + byteLength text) rest) :
    Refuses (p >>= f) offset (text ++ rest) := by
  obtain ⟨stop, hstop⟩ := hf
  refine ⟨stop, ?_⟩
  change Parser.bind p f _ = _
  rw [Parser.bind, hp]
  exact hstop

theorem Reads.labelled {p : Parser α} {offset : Nat} {text rest : List Char} {a : α}
    (h : Reads p offset text rest a) (label : String) :
    Reads (labelled label p) offset text rest a := by
  unfold Reads Parser.labelled
  rw [h]

theorem Reads.commit {p : Parser α} {offset : Nat} {text rest : List Char} {a : α}
    (h : Reads p offset text rest a) : Reads (commit p) offset text rest a := by
  unfold Reads Parser.commit
  rw [h]

theorem Reads.optional {p : Parser α} {offset : Nat} {text rest : List Char} {a : α}
    (h : Reads p offset text rest a) : Reads (optional p) offset text rest (some a) := by
  unfold Reads Parser.optional
  rw [h]

theorem Refuses.optional {p : Parser α} {offset : Nat} {rest : List Char}
    (h : Refuses p offset rest) : Reads (optional p) offset [] rest none := by
  obtain ⟨stop, hstop⟩ := h
  simp only [Reads, Parser.optional, List.nil_append, hstop, byteLength_nil, Nat.add_zero]

theorem Reads.either {p : Parser α} {offset : Nat} {text rest : List Char} {a : α}
    (h : Reads p offset text rest a) (q : Parser α) : Reads (either p q) offset text rest a := by
  unfold Reads Parser.either
  rw [h]

theorem Refuses.either {p q : Parser α} {offset : Nat} {text rest : List Char} {a : α}
    (hp : Refuses p offset (text ++ rest)) (hq : Reads q offset text rest a) :
    Reads (either p q) offset text rest a := by
  obtain ⟨stop, hstop⟩ := hp
  unfold Reads Parser.either
  rw [hstop]
  exact hq

theorem Refuses.either_refuses {p q : Parser α} {offset : Nat} {rest : List Char}
    (hp : Refuses p offset rest) (hq : Refuses q offset rest) :
    Refuses (Parser.either p q) offset rest := by
  obtain ⟨stop, hstop⟩ := hp
  obtain ⟨stop', hstop'⟩ := hq
  exact ⟨stop', by rw [Parser.either, hstop, hstop']⟩

theorem Reads.spanned {p : Parser α} {offset : Nat} {text rest : List Char} {a : α}
    (h : Reads p offset text rest a) :
    Reads (spanned p) offset text rest ⟨a, ⟨offset, offset + byteLength text⟩⟩ := by
  unfold Reads Parser.spanned
  rw [h]

theorem Refuses.spanned {p : Parser α} {offset : Nat} {rest : List Char}
    (h : Refuses p offset rest) : Refuses (spanned p) offset rest := by
  obtain ⟨stop, hstop⟩ := h
  exact ⟨stop, by unfold Parser.spanned; rw [hstop]⟩

theorem Refuses.labelled {p : Parser α} {offset : Nat} {rest : List Char}
    (h : Refuses p offset rest) (label : String) : Refuses (labelled label p) offset rest := by
  obtain ⟨stop, hstop⟩ := h
  exact ⟨_, by unfold Parser.labelled; rw [hstop]⟩

theorem reads_char (c : Char) (offset : Nat) (rest : List Char) :
    Reads (char c) offset [c] rest () := by
  simp [Reads, char]

theorem refuses_char {c : Char} {rest : List Char} (h : rest.head? ≠ some c) (offset : Nat) :
    Refuses (char c) offset rest := by
  cases rest with
  | nil => exact ⟨_, rfl⟩
  | cons d rest =>
      have hd : d ≠ c := by simpa using h
      exact ⟨_, by simp only [char, if_neg hd]; rfl⟩

theorem reads_word (letters : List Char) (offset : Nat) (rest : List Char) :
    Reads (word letters) offset letters rest () := by
  have hfront : letters.isPrefixOf (letters ++ rest) = true :=
    List.isPrefixOf_iff_prefix.mpr (List.prefix_append letters rest)
  simp only [Reads, word, hfront, if_true, Cursor.skip, List.drop_left]

theorem refuses_word {letters rest : List Char} (h : ¬letters <+: rest) (offset : Nat) :
    Refuses (word letters) offset rest := by
  have hfront : ¬letters.isPrefixOf rest = true := fun hp => h (List.isPrefixOf_iff_prefix.mp hp)
  exact ⟨_, by simp only [word, if_neg hfront]; rfl⟩

theorem takeWhile_run {p : Char → Bool} {taken rest : List Char} (htaken : taken.all p = true)
    (hrest : ∀ c ∈ rest.head?, p c = false) :
    (taken ++ rest).takeWhile p = taken ∧ (taken ++ rest).dropWhile p = rest := by
  have hall : ∀ c ∈ taken, p c = true := List.all_eq_true.mp htaken
  have hstop : rest.takeWhile p = [] ∧ rest.dropWhile p = rest := by
    cases rest with
    | nil => simp
    | cons c rest => simp [hrest c rfl]
  rw [List.takeWhile_append_of_pos hall, List.dropWhile_append_of_pos hall, hstop.1, hstop.2]
  simp

theorem reads_run {p : Char → Bool} {taken rest : List Char} (htaken : taken.all p = true)
    (hrest : ∀ c ∈ rest.head?, p c = false) (offset : Nat) :
    Reads (run p) offset taken rest taken := by
  obtain ⟨htake, hdrop⟩ := takeWhile_run htaken hrest
  simp only [Reads, run, htake, hdrop]

theorem reads_run1 {p : Char → Bool} {taken rest : List Char} (hne : taken ≠ [])
    (htaken : taken.all p = true) (hrest : ∀ c ∈ rest.head?, p c = false) (offset : Nat) :
    Reads (run1 p) offset taken rest taken := by
  obtain ⟨htake, hdrop⟩ := takeWhile_run htaken hrest
  obtain ⟨c, cs, rfl⟩ := List.exists_cons_of_ne_nil hne
  simp only [Reads, run1, htake, hdrop]

theorem refuses_run1 {p : Char → Bool} {rest : List Char} (hrest : ∀ c ∈ rest.head?, p c = false)
    (offset : Nat) : Refuses (run1 p) offset rest := by
  obtain ⟨htake, -⟩ := takeWhile_run (List.all_nil : [].all p = true) hrest
  rw [List.nil_append] at htake
  exact ⟨_, by simp only [run1, htake]; rfl⟩

theorem reads_textOf {p : Char → Bool} {taken rest : List Char} (hne : taken ≠ [])
    (htaken : taken.all p = true) (hrest : ∀ c ∈ rest.head?, p c = false) (offset : Nat) :
    Reads (textOf p) offset taken rest (String.ofList taken) :=
  (reads_run1 hne htaken hrest offset).bind_pure

theorem reads_atEnd (offset : Nat) : Reads atEnd offset [] [] () := rfl

/-- Texts that a parser reads one after another, until it refuses in front of `rest`. -/
inductive Repeats (p : Parser α) : Nat → List Char → List Char → List α → Prop where
  | stop {offset : Nat} {rest : List Char} (refuses : Refuses p offset rest) :
      Repeats p offset [] rest []
  | step {offset : Nat} {first more rest : List Char} {a : α} {as : List α}
      (reads : Reads p offset first (more ++ rest) a) (progress : first ≠ [])
      (next : Repeats p (offset + byteLength first) more rest as) :
      Repeats p offset (first ++ more) rest (a :: as)

private theorem Repeats.manyAlong {p : Parser α} {offset : Nat} {text rest : List Char} {as : List α}
    (h : Repeats p offset text rest as) (fuel : List Char) (hfuel : text.length ≤ fuel.length) :
    Reads (manyAlong p fuel) offset text rest as := by
  induction h generalizing fuel with
  | stop refuses =>
      obtain ⟨stop, hstop⟩ := refuses
      cases fuel with
      | nil => simp [Reads, Parser.manyAlong]
      | cons c fuel => simp [Reads, Parser.manyAlong, hstop]
  | step reads progress next ih =>
      have hfirst := List.length_pos_iff.mpr progress
      rw [List.length_append] at hfuel
      cases fuel with
      | nil =>
          rw [List.length_nil] at hfuel
          omega
      | cons c fuel =>
          rw [List.length_cons] at hfuel
          have hnext := ih fuel (by omega)
          unfold Reads at reads hnext ⊢
          simp only [List.append_assoc, Parser.manyAlong, reads, hnext, byteLength_append,
            Nat.add_assoc]

/-- Every text takes a character at least, so the characters suffice to count the repetitions. -/
theorem Repeats.reads {p : Parser α} {offset : Nat} {text rest : List Char} {as : List α}
    (h : Repeats p offset text rest as) : Reads (many p) offset text rest as := by
  unfold Reads many
  exact h.manyAlong (text ++ rest) (by rw [List.length_append]; omega)

end Parser

/-- The cursor `next` stands behind `text`, which `cursor` stands in front of. -/
structure Cursor.Passes (cursor : Cursor) (text : List Char) (next : Cursor) : Prop where
  rest : cursor.rest = text ++ next.rest
  offset : next.offset = cursor.offset + byteLength text

namespace Cursor

theorem Passes.refl (cursor : Cursor) : cursor.Passes [] cursor := ⟨by simp, by simp⟩

theorem Passes.trans {a b c : Cursor} {first second : List Char} (h : a.Passes first b)
    (h' : b.Passes second c) : a.Passes (first ++ second) c := by
  refine ⟨by rw [h.rest, h'.rest, List.append_assoc], ?_⟩
  rw [h'.offset, h.offset, byteLength_append, Nat.add_assoc]

end Cursor

namespace Parser

variable {α β : Type}

theorem bind_eq_done {p : Parser α} {f : α → Parser β} {cursor next : Cursor} {b : β} :
    (p >>= f) cursor = .done b next ↔
      ∃ a mid, p cursor = .done a mid ∧ f a mid = .done b next := by
  change Parser.bind p f cursor = _ ↔ _
  unfold Parser.bind
  cases p cursor <;> simp

theorem pure_eq_done {a b : α} {cursor next : Cursor} :
    (pure a : Parser α) cursor = .done b next ↔ a = b ∧ cursor = next := by
  change Reading.done a cursor = _ ↔ _
  simp

@[simp] theorem labelled_eq_done {label : String} {p : Parser α} {cursor next : Cursor} {a : α} :
    labelled label p cursor = .done a next ↔ p cursor = .done a next := by
  unfold labelled
  cases p cursor <;> simp

@[simp] theorem commit_eq_done {p : Parser α} {cursor next : Cursor} {a : α} :
    commit p cursor = .done a next ↔ p cursor = .done a next := by
  unfold commit
  cases p cursor <;> simp

theorem optional_eq_done {p : Parser α} {cursor next : Cursor} {a : Option α}
    (h : optional p cursor = .done a next) :
    (∃ b, a = some b ∧ p cursor = .done b next) ∨ (a = none ∧ next = cursor) := by
  unfold optional at h
  split at h <;> cases h
  next value heq => exact .inl ⟨value, rfl, heq⟩
  next => exact .inr ⟨rfl, rfl⟩

theorem either_eq_done {p q : Parser α} {cursor next : Cursor} {a : α}
    (h : either p q cursor = .done a next) :
    p cursor = .done a next ∨ q cursor = .done a next := by
  unfold either at h
  split at h
  next => exact .inr h
  next => exact .inl h

theorem spanned_eq_done {p : Parser α} {cursor next : Cursor} {a : Spanned α}
    (h : spanned p cursor = .done a next) :
    p cursor = .done a.value next ∧ a.span = ⟨cursor.offset, next.offset⟩ := by
  unfold spanned at h
  split at h <;> cases h
  next heq => exact ⟨heq, rfl⟩

theorem char_eq_done {c : Char} {cursor next : Cursor} {a : Unit}
    (h : char c cursor = .done a next) : cursor.Passes [c] next := by
  unfold char at h
  split at h
  next d rest hrest =>
    split at h <;> cases h
    next hd => exact ⟨by rw [hrest, hd]; rfl, by simp [hd]⟩
  next => cases h

theorem word_eq_done {letters : List Char} {cursor next : Cursor} {a : Unit}
    (h : word letters cursor = .done a next) : cursor.Passes letters next := by
  unfold word at h
  split at h <;> cases h
  next hfront =>
    obtain ⟨rest, hrest⟩ := List.isPrefixOf_iff_prefix.mp hfront
    refine ⟨?_, rfl⟩
    simp only [Cursor.skip, ← hrest, List.drop_left]

theorem atEnd_eq_done {cursor next : Cursor} {a : Unit} (h : atEnd cursor = .done a next) :
    cursor.rest = [] ∧ cursor.Passes [] next := by
  unfold atEnd at h
  split at h <;> cases h
  next hrest => exact ⟨hrest, .refl cursor⟩

theorem run_eq_done {p : Char → Bool} {cursor next : Cursor} {taken : List Char}
    (h : run p cursor = .done taken next) :
    cursor.Passes taken next ∧ taken.all p = true := by
  cases h
  exact ⟨⟨List.takeWhile_append_dropWhile.symm, rfl⟩, List.all_takeWhile⟩

theorem run1_eq_done {p : Char → Bool} {cursor next : Cursor} {taken : List Char}
    (h : run1 p cursor = .done taken next) :
    cursor.Passes taken next ∧ taken ≠ [] ∧ taken.all p = true := by
  unfold run1 at h
  split at h <;> cases h
  next hne => exact ⟨⟨List.takeWhile_append_dropWhile.symm, rfl⟩, hne, List.all_takeWhile⟩

theorem textOf_eq_done {p : Char → Bool} {cursor next : Cursor} {s : String}
    (h : textOf p cursor = .done s next) :
    ∃ taken, cursor.Passes taken next ∧ taken ≠ [] ∧ taken.all p = true ∧
      s = String.ofList taken := by
  obtain ⟨taken, mid, htaken, hs⟩ := bind_eq_done.mp h
  obtain ⟨rfl, rfl⟩ := pure_eq_done.mp hs
  obtain ⟨hpasses, hne, hall⟩ := run1_eq_done htaken
  exact ⟨taken, hpasses, hne, hall, rfl⟩

/-- Readings one after another, each from where the one before it ended. -/
inductive Repeated (p : Parser α) : Cursor → List α → Cursor → Prop where
  | stop (cursor : Cursor) : Repeated p cursor [] cursor
  | step {cursor mid next : Cursor} {a : α} {as : List α} (first : p cursor = .done a mid)
      (more : Repeated p mid as next) : Repeated p cursor (a :: as) next

theorem many_eq_done {p : Parser α} {cursor next : Cursor} {as : List α}
    (h : many p cursor = .done as next) : Repeated p cursor as next := by
  have hfuel : ∀ (fuel : List Char) (cursor : Cursor) (as : List α),
      manyAlong p fuel cursor = .done as next → Repeated p cursor as next := by
    intro fuel
    induction fuel with
    | nil =>
        intro cursor as h
        cases h
        exact .stop _
    | cons c fuel ih =>
        intro cursor as h
        simp only [manyAlong] at h
        split at h
        next value mid hvalue =>
          split at h <;> cases h
          next values hvalues => exact .step hvalue (ih mid values hvalues)
        next =>
          cases h
          exact .stop _
        next => cases h
  exact hfuel cursor.rest cursor as h

end Parser

end RequestQuery
