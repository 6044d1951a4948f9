import RequestQuery.Proofs.Diagnostic.Placed
import RequestQuery.Proofs.Reading.Parser
import RequestQuery.Reading.Nesting

/-!
# Where parsers stop

A parser only moves forward over the text it was given, whether it is done, refuses or fails, so the
fault it is reported with is a part of that text. There is one law for each combinator. The check of
nesting stops at a bracket of the text.
-/

namespace RequestQuery

/-- Reading on from `cursor` can come to `next`. -/
def Cursor.Reaches (cursor next : Cursor) : Prop := ∃ text, cursor.Passes text next

namespace Cursor

theorem Reaches.refl (cursor : Cursor) : cursor.Reaches cursor := ⟨[], .refl cursor⟩

theorem Reaches.trans {a b c : Cursor} (h : a.Reaches b) (h' : b.Reaches c) : a.Reaches c := by
  obtain ⟨first, hfirst⟩ := h
  obtain ⟨second, hsecond⟩ := h'
  exact ⟨first ++ second, hfirst.trans hsecond⟩

end Cursor

/-- A stop that reading on from `cursor` can come to. A number that is at fault stands right there. -/
structure Stop.Behind (cursor : Cursor) (stop : Stop) : Prop where
  place : cursor.Reaches stop.place
  number : ∀ fault ∈ stop.number, fault.text.toList <+: stop.place.rest

namespace Stop

theorem bare_behind (cursor : Cursor) : (bare cursor).Behind cursor :=
  ⟨.refl cursor, fun _ h => nomatch h⟩

theorem Behind.trans {cursor mid : Cursor} {stop : Stop} (h : cursor.Reaches mid)
    (h' : stop.Behind mid) : stop.Behind cursor :=
  ⟨h.trans h'.place, h'.number⟩

theorem Behind.fault {source : String} {stop : Stop} (h : stop.Behind (.start source)) :
    stop.fault.OfSyntax source.toList := by
  obtain ⟨⟨before, hpasses⟩, hnumber⟩ := h
  have hsource : source.toList = before ++ stop.place.rest := hpasses.rest
  have hoffset : stop.place.offset = byteLength before := by
    rw [hpasses.offset]
    exact Nat.zero_add _
  unfold Stop.fault
  split
  next number hsome =>
    obtain ⟨after, hafter⟩ := hnumber number hsome
    refine ⟨rfl, number.text.toList, before, after, ?_, ?_⟩
    · rw [hsource, hafter]
    · rw [hoffset]
  next =>
    split
    next c rest hrest =>
      refine ⟨rfl, [c], before, rest, ?_, ?_⟩
      · rw [hsource, hrest, List.singleton_append]
      · simp [hoffset]
    next hrest =>
      refine ⟨rfl, [], before, [], ?_, ?_⟩
      · simp [hsource, hrest]
      · simp [hoffset, Span.point]

end Stop

/-- Whatever a reading from `cursor` came to lies behind the cursor. -/
def Reading.Tracks {α : Type} (cursor : Cursor) : Reading α → Prop
  | .done _ next => cursor.Reaches next
  | .refused stop => stop.Behind cursor
  | .failed stop => stop.Behind cursor

theorem Reading.Tracks.trans {α : Type} {cursor mid : Cursor} {reading : Reading α}
    (h : cursor.Reaches mid) (h' : reading.Tracks mid) : reading.Tracks cursor := by
  cases reading with
  | done value next => exact h.trans h'
  | refused stop | failed stop => exact Stop.Behind.trans h h'

namespace Parser

variable {α β : Type} {p q : Parser α}

def Tracks (p : Parser α) : Prop := ∀ cursor, (p cursor).Tracks cursor

theorem Tracks.parse_error (h : p.Tracks) {source : String} {fault : Fault}
    (hparse : p.parse source = .error fault) : fault.OfSyntax source.toList := by
  have hstart := h (.start source)
  unfold Parser.parse at hparse
  split at hparse <;> cases hparse
  next stop hstop =>
    rw [hstop] at hstart
    exact Stop.Behind.fault hstart
  next stop hstop =>
    rw [hstop] at hstart
    exact Stop.Behind.fault hstart

theorem tracks_pure (a : α) : Tracks (pure a : Parser α) := Cursor.Reaches.refl

theorem tracks_refuse : Tracks (refuse : Parser α) := Stop.bare_behind

theorem Tracks.bind {f : α → Parser β} (hp : p.Tracks) (hf : ∀ a, (f a).Tracks) :
    (p >>= f).Tracks := by
  intro cursor
  have hcursor := hp cursor
  change (Parser.bind p f cursor).Tracks cursor
  unfold Parser.bind
  cases hread : p cursor with
  | done a next =>
      rw [hread] at hcursor
      exact (hf a next).trans hcursor
  | refused stop | failed stop => rwa [hread] at hcursor

theorem Tracks.labelled (hp : p.Tracks) (label : String) : (labelled label p).Tracks := by
  intro cursor
  have hcursor := hp cursor
  unfold Parser.labelled
  cases hread : p cursor with
  | done a next => rwa [hread] at hcursor
  | refused stop | failed stop =>
      rw [hread] at hcursor
      exact ⟨hcursor.place, hcursor.number⟩

theorem Tracks.commit (hp : p.Tracks) : (commit p).Tracks := by
  intro cursor
  have hcursor := hp cursor
  unfold Parser.commit
  cases hread : p cursor with
  | done a next | refused stop | failed stop => rwa [hread] at hcursor

theorem Tracks.optional (hp : p.Tracks) : (optional p).Tracks := by
  intro cursor
  have hcursor := hp cursor
  unfold Parser.optional
  cases hread : p cursor with
  | done a next | failed stop => rwa [hread] at hcursor
  | refused stop => exact Cursor.Reaches.refl cursor

theorem Tracks.either (hp : p.Tracks) (hq : q.Tracks) : (either p q).Tracks := by
  intro cursor
  have hcursor := hp cursor
  unfold Parser.either
  cases hread : p cursor with
  | done a next | failed stop => rwa [hread] at hcursor
  | refused stop => exact hq cursor

theorem Tracks.spanned (hp : p.Tracks) : (spanned p).Tracks := by
  intro cursor
  have hcursor := hp cursor
  unfold Parser.spanned
  cases hread : p cursor with
  | done a next | refused stop | failed stop => rwa [hread] at hcursor

theorem Tracks.many (hp : p.Tracks) : (many p).Tracks := by
  have hfuel : ∀ fuel : List Char, (manyAlong p fuel).Tracks := by
    intro fuel
    induction fuel with
    | nil => exact Cursor.Reaches.refl
    | cons c fuel ih =>
        intro cursor
        have hcursor := hp cursor
        unfold manyAlong
        cases hread : p cursor with
        | done a next =>
            rw [hread] at hcursor
            -- A failure further on is behind the place where this round started.
            have hnext := (ih next).trans hcursor
            dsimp only
            cases hmore : manyAlong p fuel next with
            | done as last | refused stop | failed stop => rwa [hmore] at hnext
        | refused stop => exact Cursor.Reaches.refl cursor
        | failed stop => rwa [hread] at hcursor
  intro cursor
  exact hfuel cursor.rest cursor

theorem tracks_of_bare (hdone : ∀ cursor a next, p cursor = .done a next → cursor.Reaches next)
    (hstop : ∀ cursor stop, p cursor = .refused stop ∨ p cursor = .failed stop →
      stop = .bare cursor) : p.Tracks := by
  intro cursor
  cases hread : p cursor with
  | done a next => exact hdone cursor a next hread
  | refused stop =>
      rw [hstop cursor stop (.inl hread)]
      exact Stop.bare_behind cursor
  | failed stop =>
      rw [hstop cursor stop (.inr hread)]
      exact Stop.bare_behind cursor

theorem tracks_char (c : Char) : (char c).Tracks := by
  apply tracks_of_bare
  · intro cursor a next h
    exact ⟨_, char_eq_done h⟩
  · intro cursor stop h
    unfold char at h
    grind

theorem tracks_word (letters : List Char) : (word letters).Tracks := by
  apply tracks_of_bare
  · intro cursor a next h
    exact ⟨_, word_eq_done h⟩
  · intro cursor stop h
    unfold word at h
    grind

theorem tracks_run (c : Char → Bool) : (run c).Tracks := by
  apply tracks_of_bare
  · intro cursor a next h
    exact ⟨_, (run_eq_done h).1⟩
  · intro cursor stop h
    simp [run] at h

theorem tracks_run1 (c : Char → Bool) : (run1 c).Tracks := by
  apply tracks_of_bare
  · intro cursor a next h
    exact ⟨_, (run1_eq_done h).1⟩
  · intro cursor stop h
    unfold run1 at h
    grind

theorem tracks_atEnd : atEnd.Tracks := by
  apply tracks_of_bare
  · intro cursor a next h
    exact ⟨_, (atEnd_eq_done h).2⟩
  · intro cursor stop h
    unfold atEnd at h
    grind

theorem tracks_textOf (c : Char → Bool) : (textOf c).Tracks :=
  (tracks_run1 c).bind fun _ => tracks_pure _

theorem tracks_name : name.Tracks := (tracks_textOf _).spanned.labelled _

theorem tracks_attributeName (braces : Bool) : (attributeName braces).Tracks := by
  cases braces with
  | false => exact tracks_name
  | true => exact (tracks_textOf _).spanned.labelled _

theorem tracks_separators : separators.Tracks := (tracks_run _).bind fun _ => tracks_pure _

theorem tracks_connective (letters : List Char) : (connective letters).Tracks :=
  (tracks_run1 _).bind fun _ => (tracks_word _).bind fun _ => (tracks_run1 _).bind fun _ =>
    tracks_pure _

end Parser

namespace Nesting

theorem firstTooDeep_slices {limit depth offset : Nat} {quotes : QuoteState} (before : List Char)
    {cs : List Char} (h : firstTooDeep limit quotes depth (byteLength before) cs = some offset) :
    ∃ c, Slices (before ++ cs) ⟨offset, offset + 1⟩ [c] := by
  induction cs generalizing quotes depth before with
  | nil => cases h
  | cons c cs ih =>
      have hnext : byteLength before + c.utf8Size = byteLength (before ++ [c]) := by simp
      have htext : before ++ c :: cs = before ++ [c] ++ cs := by simp
      simp only [firstTooDeep, hnext] at h
      rw [htext]
      split at h
      next => exact ih _ h
      next =>
        split at h
        next hopener =>
          split at h
          next =>
            cases h
            have hsize : c.utf8Size = 1 := by
              simp only [isOpener, Bool.or_eq_true, beq_iff_eq] at hopener
              rcases hopener with rfl | rfl <;> rfl
            exact ⟨c, before, cs, by simp, by simp [hsize]⟩
          next => exact ih _ h
        next =>
          split at h
          next => exact ih _ h
          next => exact ih _ h

theorem check_error {source : String} {limit : Nat} {fault : Fault}
    (h : check source limit = .error fault) : fault.OfSyntax source.toList := by
  unfold check at h
  split at h <;> cases h
  next offset hdeep =>
    obtain ⟨c, hslices⟩ := firstTooDeep_slices [] hdeep
    exact ⟨rfl, [c], hslices⟩

end Nesting

end RequestQuery
