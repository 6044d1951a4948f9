import RequestQuery.Proofs.Text.Slices
import Mathlib.Data.Prod.Lex

/-!
# Line and column tell offsets apart

Every character read moves the place on: to the next line, or to the next column of the same line. So
further into a text is a later place, and a place shown as `line:column` belongs to one offset only.
-/

namespace RequestQuery

theorem toLex_lt_advance (place : Nat × Nat) {cs : List Char} (hne : cs ≠ []) :
    toLex place < toLex (advance place cs) := by
  induction cs generalizing place with
  | nil => exact absurd rfl hne
  | cons c cs ih =>
      obtain ⟨line, column⟩ := place
      have hstep : toLex (line, column) <
          toLex (if c = '\n' then (line + 1, 1) else (line, column + 1)) := by
        rw [Prod.Lex.toLex_lt_toLex]
        split
        next => exact .inl (Nat.lt_succ_self line)
        next => exact .inr ⟨rfl, Nat.lt_succ_self column⟩
      rw [advance]
      by_cases hrest : cs = []
      · rw [hrest]
        exact hstep
      · exact hstep.trans (ih _ hrest)

theorem exists_append_of_isValid {source : String} {offset : Nat}
    (h : (⟨offset⟩ : String.Pos.Raw).IsValid source) :
    ∃ before after, source.toList = before ++ after ∧ byteLength before = offset := by
  obtain ⟨front, back, rfl, hoffset⟩ := String.Pos.Raw.isValid_iff_exists_append.mp h
  refine ⟨front.toList, back.toList, String.toList_append, ?_⟩
  rw [byteLength_toList]
  exact (congrArg String.Pos.Raw.byteIdx hoffset).symm

/-- Of two starts of one text the one with fewer bytes is continued by the other. -/
theorem exists_between {before after before' after' : List Char}
    (h : before ++ after = before' ++ after') (hlt : byteLength before < byteLength before') :
    ∃ between, between ≠ [] ∧ before' = before ++ between := by
  have hstart : before <+: before' ++ after' := ⟨after, h⟩
  rcases List.prefix_or_prefix_of_prefix hstart ⟨after', rfl⟩ with
    ⟨between, rfl⟩ | ⟨between, rfl⟩
  · refine ⟨between, ?_, rfl⟩
    rintro rfl
    rw [List.append_nil] at hlt
    exact Nat.lt_irrefl _ hlt
  · rw [byteLength_append] at hlt
    omega

namespace Location

/-- Line and column, of which the line counts first. -/
def place (location : Location) : Nat ×ₗ Nat := toLex (location.line, location.column)

theorem place_ofSpan {source : String} {before after : List Char}
    (h : source.toList = before ++ after) (stop : Nat) :
    (ofSpan ⟨byteLength before, stop⟩ source).place = toLex (advance (1, 1) before) := by
  simp only [place, ofSpan, h, charsBefore_append, Option.getD_some]

theorem place_lt_place {source : String} {p q : Nat} (hp : (⟨p⟩ : String.Pos.Raw).IsValid source)
    (hq : (⟨q⟩ : String.Pos.Raw).IsValid source) (hlt : p < q) (stop stop' : Nat) :
    (ofSpan ⟨p, stop⟩ source).place < (ofSpan ⟨q, stop'⟩ source).place := by
  obtain ⟨before, after, hbefore, rfl⟩ := exists_append_of_isValid hp
  obtain ⟨before', after', hbefore', rfl⟩ := exists_append_of_isValid hq
  obtain ⟨between, hne, rfl⟩ := exists_between (hbefore.symm.trans hbefore') hlt
  rw [place_ofSpan hbefore, place_ofSpan hbefore', advance_append]
  exact toLex_lt_advance _ hne

private theorem repr_injective {a b : Nat} (h : a.repr.toList = b.repr.toList) : a = b := by
  rw [Nat.toList_repr, Nat.toList_repr] at h
  have hread := congrArg (fun digits => Nat.ofDigitChars 10 digits 0) h
  rwa [Nat.ofDigitChars_toDigits (by decide) (by decide),
    Nat.ofDigitChars_toDigits (by decide) (by decide)] at hread

private theorem takeWhile_repr (n : Nat) (rest : List Char) :
    (n.repr.toList ++ ':' :: rest).takeWhile (· != ':') = n.repr.toList := by
  have hdigits : ∀ c ∈ n.repr.toList, (c != ':') = true := by
    intro c hc
    rw [Nat.toList_repr] at hc
    have hdigit := Nat.isDigit_of_mem_toDigits (by decide) (by decide) hc
    rw [bne_iff_ne]
    rintro rfl
    exact absurd hdigit (by decide)
  rw [List.takeWhile_append_of_pos hdigits, List.takeWhile_cons_of_neg (by decide), List.append_nil]

/-- The colon ends the line, so a shown place is read in one way. -/
theorem place_eq_of_text {location location' : Location} (h : location.text = location'.text) :
    location.place = location'.place := by
  have hchars := congrArg String.toList h
  simp only [text, String.toList_append, List.append_assoc] at hchars
  change location.line.repr.toList ++ ':' :: location.column.repr.toList =
    location'.line.repr.toList ++ ':' :: location'.column.repr.toList at hchars
  have hfronts := congrArg (List.takeWhile (· != ':')) hchars
  rw [takeWhile_repr, takeWhile_repr] at hfronts
  have hline := repr_injective hfronts
  rw [hline] at hchars
  have hcolumn := repr_injective (List.tail_eq_of_cons_eq (List.append_cancel_left hchars))
  rw [place, place, hline, hcolumn]

/-- Further into a text is a later place, so neither the place nor what is shown of it is that of two
offsets. Offset and length give the span back. -/
theorem ofSpan_identifies_offsets (source : String) :
    (∀ p q : Nat, (⟨p⟩ : String.Pos.Raw).IsValid source → (⟨q⟩ : String.Pos.Raw).IsValid source →
      ∀ stop stop' : Nat,
        (p < q → (ofSpan ⟨p, stop⟩ source).place < (ofSpan ⟨q, stop'⟩ source).place) ∧
        ((ofSpan ⟨p, stop⟩ source).text = (ofSpan ⟨q, stop'⟩ source).text → p = q)) ∧
    ∀ span : Span, span.start ≤ span.stop → (ofSpan span source).span = span := by
  refine ⟨?_, fun span h => span_ofSpan span source h⟩
  intro p q hp hq stop stop'
  refine ⟨fun hlt => place_lt_place hp hq hlt stop stop', fun htext => ?_⟩
  have hplace := place_eq_of_text htext
  rcases Nat.lt_trichotomy p q with hlt | heq | hlt
  · exact absurd hplace (place_lt_place hp hq hlt stop stop').ne
  · exact heq
  · exact absurd hplace.symm (place_lt_place hq hp hlt stop' stop).ne

/-- Offsets 4 and 5 of `a↵é↵↵b` stand on both sides of its second line break. -/
theorem ofSpan_identifies_offsets_breaks :
    (⟨4⟩ : String.Pos.Raw).IsValid "a\né\n\nb" ∧ (⟨5⟩ : String.Pos.Raw).IsValid "a\né\n\nb" ∧
    (ofSpan ⟨4, 5⟩ "a\né\n\nb").place < (ofSpan ⟨5, 5⟩ "a\né\n\nb").place ∧
    (ofSpan ⟨4, 5⟩ "a\né\n\nb").text = "2:2" ∧ (ofSpan ⟨5, 5⟩ "a\né\n\nb").text = "3:1" ∧
    (ofSpan ⟨4, 5⟩ "a\né\n\nb").span = ⟨4, 5⟩ := by
  have hfour : (⟨4⟩ : String.Pos.Raw).IsValid "a\né\n\nb" := by
    rw [String.Pos.Raw.isValid_iff_exists_append]
    exact ⟨"a\né", "\n\nb", by decide, by decide⟩
  have hfive : (⟨5⟩ : String.Pos.Raw).IsValid "a\né\n\nb" := by
    rw [String.Pos.Raw.isValid_iff_exists_append]
    exact ⟨"a\né\n", "\nb", by decide, by decide⟩
  obtain ⟨horder, hspan⟩ := ofSpan_identifies_offsets "a\né\n\nb"
  exact ⟨hfour, hfive, (horder 4 5 hfour hfive 5 5).1 (by decide), by decide, by decide,
    hspan ⟨4, 5⟩ (by decide)⟩

end Location

end RequestQuery
