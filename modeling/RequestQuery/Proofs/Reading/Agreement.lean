import RequestQuery.Proofs.Reading.Balanced
import RequestQuery.Proofs.Reading.Parser

/-!
# Parsers that agree

Two parsers agree where a condition on the cursor makes them come to the same. Agreement is kept by
every combinator, so two grammars that differ in one place agree where that place is never reached.
The condition of interest is that no bracket to come is nested too deep.
-/

namespace RequestQuery

namespace Parser

variable {α β : Type} {before mid after : Cursor → Prop}

/-- Where `before` holds, both come to the same, and `after` holds behind what they read. -/
def Agree (before after : Cursor → Prop) (p q : Parser α) : Prop :=
  ∀ cursor, before cursor →
    p cursor = q cursor ∧ ∀ value next, p cursor = .done value next → after next

theorem agree_pure (value : α) : Agree before before (pure value) (pure value) := by
  intro cursor hbefore
  refine ⟨rfl, fun value' next h => ?_⟩
  have hnext := (pure_eq_done.mp h).2
  rwa [← hnext]

theorem Agree.bind {p q : Parser α} {f g : α → Parser β} (h : Agree before mid p q)
    (hf : ∀ value, Agree mid after (f value) (g value)) :
    Agree before after (p >>= f) (q >>= g) := by
  intro cursor hbefore
  have hp := h cursor hbefore
  constructor
  · change Parser.bind p f cursor = Parser.bind q g cursor
    unfold Parser.bind
    rw [← hp.1]
    cases hread : p cursor with
    | done value next => exact (hf value next (hp.2 value next hread)).1
    | refused stop => rfl
    | failed stop => rfl
  · intro value next hdone
    obtain ⟨first, behind, hfirst, hsecond⟩ := bind_eq_done.mp hdone
    exact (hf first behind (hp.2 first behind hfirst)).2 value next hsecond

theorem Agree.mono {after' : Cursor → Prop} {p q : Parser α} (h : Agree before after p q)
    (hafter : ∀ cursor, after cursor → after' cursor) : Agree before after' p q := by
  intro cursor hbefore
  have hp := h cursor hbefore
  exact ⟨hp.1, fun value next hdone => hafter next (hp.2 value next hdone)⟩

theorem Agree.labelled {p q : Parser α} (h : Agree before after p q) (label : String) :
    Agree before after (labelled label p) (labelled label q) := by
  intro cursor hbefore
  have hp := h cursor hbefore
  refine ⟨by unfold Parser.labelled; rw [hp.1], fun value next hdone => ?_⟩
  exact hp.2 value next (labelled_eq_done.mp hdone)

theorem Agree.commit {p q : Parser α} (h : Agree before after p q) :
    Agree before after (commit p) (commit q) := by
  intro cursor hbefore
  have hp := h cursor hbefore
  refine ⟨by unfold Parser.commit; rw [hp.1], fun value next hdone => ?_⟩
  exact hp.2 value next (commit_eq_done.mp hdone)

theorem Agree.spanned {p q : Parser α} (h : Agree before after p q) :
    Agree before after (spanned p) (spanned q) := by
  intro cursor hbefore
  have hp := h cursor hbefore
  refine ⟨by unfold Parser.spanned; rw [hp.1], fun value next hdone => ?_⟩
  exact hp.2 value.value next (spanned_eq_done hdone).1

theorem Agree.optional {p q : Parser α} (h : Agree before after p q)
    (hnone : ∀ cursor, before cursor → after cursor) :
    Agree before after (optional p) (optional q) := by
  intro cursor hbefore
  have hp := h cursor hbefore
  refine ⟨by unfold Parser.optional; rw [hp.1], fun value next hdone => ?_⟩
  rcases optional_eq_done hdone with ⟨read, -, hread⟩ | ⟨-, hnext⟩
  · exact hp.2 read next hread
  · rw [hnext]
    exact hnone cursor hbefore

theorem Agree.either {p q p' q' : Parser α} (h : Agree before after p q)
    (h' : Agree before after p' q') : Agree before after (either p p') (either q q') := by
  intro cursor hbefore
  have hp := h cursor hbefore
  have hp' := h' cursor hbefore
  refine ⟨by unfold Parser.either; rw [hp.1, hp'.1], fun value next hdone => ?_⟩
  rcases either_eq_done hdone with hread | hread
  · exact hp.2 value next hread
  · exact hp'.2 value next hread

private theorem Repeated.keeps {p q : Parser α} (h : Agree before before p q) {cursor next : Cursor}
    {values : List α} (hrepeated : Repeated p cursor values next) (hbefore : before cursor) :
    before next := by
  induction hrepeated with
  | stop cursor => exact hbefore
  | step hfirst _ ih => exact ih ((h _ hbefore).2 _ _ hfirst)

theorem Agree.many {p q : Parser α} (h : Agree before before p q) :
    Agree before before (many p) (many q) := by
  have hfuel : ∀ (fuel : List Char) (cursor : Cursor), before cursor →
      manyAlong p fuel cursor = manyAlong q fuel cursor := by
    intro fuel
    induction fuel with
    | nil => intro cursor _; rfl
    | cons c fuel ih =>
        intro cursor hbefore
        have hp := h cursor hbefore
        simp only [manyAlong, ← hp.1]
        cases hread : p cursor with
        | done value behind => simp only [ih behind (hp.2 value behind hread)]
        | refused stop => rfl
        | failed stop => rfl
  intro cursor hbefore
  refine ⟨hfuel cursor.rest cursor hbefore, fun values next hdone => ?_⟩
  exact (many_eq_done hdone).keeps h hbefore

/-- A parser agrees with itself if the condition outlasts every text it reads. -/
theorem agree_self {p : Parser α} (text : List Char → Prop)
    (hreads : ∀ cursor value next, p cursor = .done value next →
      ∃ cs, text cs ∧ cursor.Passes cs next)
    (hkeeps : ∀ cursor next cs, text cs → cursor.Passes cs next → before cursor → after next) :
    Agree before after p p := by
  intro cursor hbefore
  refine ⟨rfl, fun value next hdone => ?_⟩
  obtain ⟨cs, htext, hpasses⟩ := hreads cursor value next hdone
  exact hkeeps cursor next cs htext hpasses hbefore

end Parser

namespace Nesting

variable {limit depth : Nat}

/-- With `depth` brackets open, no opener to come is past the limit. -/
def Within (limit depth : Nat) (cursor : Cursor) : Prop :=
  firstTooDeep limit .outside depth cursor.offset cursor.rest = none

theorem within_start {source : String} :
    Within limit 0 (.start source) ↔ check source limit = .ok () := by
  unfold Within check Cursor.start
  cases firstTooDeep limit .outside 0 0 source.toList <;> simp

theorem Within.opener {cursor next : Cursor} {c : Char} (hc : isOpener c = true)
    (hpasses : cursor.Passes [c] next) (h : Within limit depth cursor) :
    depth < limit ∧ Within limit (depth + 1) next := by
  unfold Within at h ⊢
  rw [hpasses.rest, List.singleton_append] at h
  rw [hpasses.offset]
  simpa using firstTooDeep_behind_opener hc h

theorem Within.closer {cursor next : Cursor} {c : Char} (hc : isCloser c = true)
    (hpasses : cursor.Passes [c] next) (h : Within limit (depth + 1) cursor) :
    Within limit depth next := by
  unfold Within at h ⊢
  rw [hpasses.rest, List.singleton_append, firstTooDeep_closer hc] at h
  rw [hpasses.offset]
  simpa using h

theorem Within.balanced {cursor next : Cursor} {cs : List Char} {d : Nat} (hcs : Balanced d cs)
    (hpasses : cursor.Passes cs next) (h : Within limit depth cursor) : Within limit depth next := by
  unfold Within at h ⊢
  rw [hpasses.rest] at h
  rw [hpasses.offset]
  exact firstTooDeep_behind hcs h

theorem agree_of_balanced {α : Type} {p : Parser α}
    (h : ∀ cursor value next, p cursor = .done value next →
      ∃ cs, Balanced 0 cs ∧ cursor.Passes cs next) :
    Parser.Agree (Within limit depth) (Within limit depth) p p :=
  Parser.agree_self (Balanced 0) h fun _ _ _ hcs hpasses hwithin => hwithin.balanced hcs hpasses

theorem agree_opener {c : Char} (hc : isOpener c = true) :
    Parser.Agree (Within limit depth) (fun next => depth < limit ∧ Within limit (depth + 1) next)
      (Parser.char c) (Parser.char c) := by
  apply Parser.agree_self (fun cs => cs = [c])
  · intro cursor value next h
    exact ⟨[c], rfl, Parser.char_eq_done h⟩
  · intro cursor next cs hcs hpasses hwithin
    subst hcs
    exact hwithin.opener hc hpasses

theorem agree_closer {c : Char} (hc : isCloser c = true) :
    Parser.Agree (Within limit (depth + 1)) (Within limit depth) (Parser.char c) (Parser.char c) := by
  apply Parser.agree_self (fun cs => cs = [c])
  · intro cursor value next h
    exact ⟨[c], rfl, Parser.char_eq_done h⟩
  · intro cursor next cs hcs hpasses hwithin
    subst hcs
    exact hwithin.closer hc hpasses

theorem agree_plain {c : Char} (hc : isPlain c = true) :
    Parser.Agree (Within limit depth) (Within limit depth) (Parser.char c) (Parser.char c) :=
  agree_of_balanced fun _ _ _ h => ⟨[c], .plain 0 hc, Parser.char_eq_done h⟩

theorem agree_atEnd : Parser.Agree (Within limit depth) (Within limit depth) Parser.atEnd
    Parser.atEnd := by
  apply agree_of_balanced
  intro cursor value next h
  exact ⟨[], .nil 0, (Parser.atEnd_eq_done h).2⟩

/-- The openers of a text are no more than its characters. -/
theorem check_length (source : String) : check source source.length = .ok () := by
  have hscan : ∀ (cs : List Char) (quotes : QuoteState) (depth offset : Nat),
      depth + cs.length ≤ source.length →
      firstTooDeep source.length quotes depth offset cs = none := by
    intro cs
    induction cs with
    | nil => intro quotes depth offset _; rfl
    | cons c cs ih =>
        intro quotes depth offset hlength
        rw [List.length_cons] at hlength
        have hopener : ¬source.length < depth + 1 := by omega
        unfold firstTooDeep
        simp only [hopener, if_false]
        split
        · exact ih _ _ _ (by omega)
        · split
          · exact ih _ _ _ (by omega)
          · split
            · exact ih _ _ _ (by omega)
            · exact ih _ _ _ (by omega)
  have hlength : 0 + source.toList.length ≤ source.length := by
    rw [String.length_toList]
    omega
  unfold check
  rw [hscan source.toList .outside 0 0 hlength]

end Nesting

end RequestQuery
