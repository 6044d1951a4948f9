import RequestQuery.Proofs.Filter.Composition
import RequestQuery.Proofs.Filter.Marks
import RequestQuery.Proofs.Filter.RoundTrip
import RequestQuery.SettingsDocument

/-!
# The shape of filters that are read

Whatever the text, a filter that is read is one that can be written: it has alternatives with
comparisons in them, paths of names, sets of at least two literals, decimals that are no integers, and
ranges exactly where the operator asks for one. In the tree it comes from every node has two parts.
-/

namespace RequestQuery

namespace FilterSettings

/-- Settings that were built from the basic ones or read from a document, and changed since. -/
inductive Obtained : FilterSettings → Prop where
  | initial : Obtained .initial
  | read {document : Json} {settings : FilterSettings} (step : ofJson document = .ok settings) :
      Obtained settings
  | bind {settings settings' : FilterSettings} {token : String} {operator : Operator}
      (before : Obtained settings) (step : settings.bind token operator = .ok settings') :
      Obtained settings'
  | withMaxDepth {settings : FilterSettings} (before : Obtained settings) (depth : Nat) :
      Obtained (settings.withMaxDepth depth)

private theorem Draft.reachable_finish {draft : Draft} {settings : FilterSettings}
    (h : draft.finish = .ok settings) : settings.Reachable := by
  unfold Draft.finish at h
  split at h <;> cases h
  next hextended => exact reachable_of_extended hextended

theorem reachable_of_ofJson {document : Json} {settings : FilterSettings}
    (h : ofJson document = .ok settings) : settings.Reachable := by
  unfold ofJson at h
  split at h
  · split at h
    · exact Draft.reachable_finish h
    · cases h
  · split at h
    · exact Draft.reachable_finish h
    · cases h
  · cases h

/-- Documents give no settings that could not be built. -/
theorem Obtained.reachable {settings : FilterSettings} (h : settings.Obtained) :
    settings.Reachable := by
  induction h with
  | initial => exact .initial
  | read step => exact reachable_of_ofJson step
  | bind _ step ih => exact ih.bind step
  | withMaxDepth _ depth ih => exact ih.withMaxDepth depth

end FilterSettings

private theorem Literal.ofInt?_ne_decimal (n : Int) (d : Decimal) : ofInt? n ≠ some (.decimal d) := by
  unfold ofInt?
  split <;> simp

/-- A decimal keeps the digits behind the point, a zero has no sign, and without a point the number is
too large for an integer. -/
private theorem Numeral.parts_of_literal {n : Numeral} {d : Decimal}
    (h : n.literal = .ok (.decimal d)) :
    d.scale = (n.fraction.getD []).length ∧ (d.negative = true → d.mantissa ≠ 0) ∧
      (n.fraction = none → Literal.ofInt? d.signedMantissa = none) := by
  obtain ⟨negative, whole, fraction⟩ := n
  simp only [Numeral.literal] at h
  split at h
  next l hinteger =>
    cases h
    split at hinteger
    · exact absurd hinteger (Literal.ofInt?_ne_decimal _ d)
    · cases hinteger
  next hinteger =>
    split at h
    next mantissa scale hkept =>
      split at h <;> cases h
      next hd =>
        obtain ⟨hmantissa, hscale⟩ := Decimal.eq_of_accumulate hkept
        obtain ⟨hnegative, hm, hs⟩ := Decimal.eq_of_signed? hd
        refine ⟨hs.trans hscale, ?_, ?_⟩
        · rw [hnegative, hm]
          simp
        · rintro rfl
          have hsigned : d.signedMantissa =
              if negative = true then -Int.ofNat (Nat.ofDigitChars 10 whole 0)
              else Int.ofNat (Nat.ofDigitChars 10 whole 0) := by
            rw [Option.getD_none, List.append_nil] at hmantissa
            rw [Decimal.signedMantissa, hnegative, hm, hmantissa]
            cases negative with
            | false => rfl
            | true =>
                by_cases hzero : Nat.ofDigitChars 10 whole 0 = 0
                · rw [hzero]
                  rfl
                · simp [hzero]
          rw [hsigned]
          simpa using hinteger
    next => cases h
    next => cases h

theorem Numeral.literal_writable {n : Numeral} (hn : n.WellFormed) {l : Literal}
    (h : n.literal = .ok l) : l.Writable := by
  cases l with
  | null | boolean b | integer m | text t => trivial
  | decimal d =>
      obtain ⟨hscale, hzero, hlarge⟩ := parts_of_literal h
      refine ⟨?_, fun hd => hzero hd.1 hd.2⟩
      cases hfraction : n.fraction with
      | some digits =>
          left
          rw [hscale, hfraction]
          exact List.length_pos_iff.mpr (hn.2 digits hfraction).1
      | none =>
          right
          intro hbounds
          have hnone := hlarge hfraction
          rw [Literal.ofInt?, if_pos hbounds] at hnone
          cases hnone

namespace Grammar

theorem Spelling.literal_writable {s : Spelling} (hs : s.WellFormed) (hnumber : s.Representable) :
    s.literal.Writable := by
  cases s with
  | quoted cs | boolean b | null => trivial
  | number n =>
      obtain ⟨l, hl⟩ := hnumber
      rw [literal, hl]
      exact Numeral.literal_writable hs hl

theorem ValueSpelling.value_writable {v : ValueSpelling} (hv : v.WellFormed)
    (hnumber : v.Representable) : v.value.Writable := by
  have hliteral : ∀ s ∈ v.literals, s.literal.Writable :=
    fun s hs => Spelling.literal_writable (hv s hs) (hnumber s hs)
  cases v with
  | single s => exact hliteral s (by simp [literals])
  | range first last =>
      exact ⟨hliteral first (by simp [literals]), hliteral last (by simp [literals])⟩
  | set first second more =>
      refine ⟨by simp, fun l hl => ?_⟩
      have hmem : l ∈ (literals (.set first second more)).map Spelling.literal := hl
      obtain ⟨s, hs, rfl⟩ := List.mem_map.mp hmem
      exact hliteral s hs

end Grammar

namespace OperatorTable

variable {operators : OperatorTable}

private theorem isRangeOnly_of_forRange? {operator derived : Operator}
    (h : operator.forRange? = some derived) : derived.isRangeOnly = true := by
  cases operator <;> cases h <;> rfl

theorem Lawful.resolve_eq_ok (h : operators.Lawful) {raw : RawComparison} {c : Comparison}
    (hresolve : operators.resolve raw = .ok c) :
    c.path = raw.path ∧ c.value = raw.value ∧
      (c.operator.isRangeOnly = true ↔ c.value.isRange = true) ∧
      (c.operator.isRangeOnly = false → ∃ token, operators.find? token = some c.operator) := by
  simp only [resolve] at hresolve
  split at hresolve
  next => cases hresolve
  next operator hbound =>
    split at hresolve
    next hrange =>
      split at hresolve <;> cases hresolve
      next derived hderived =>
        split at hderived
        · have honly := isRangeOnly_of_forRange? hderived
          refine ⟨rfl, rfl, by simp [honly, hrange], ?_⟩
          intro hnot
          rw [honly] at hnot
          cases hnot
        · cases hderived
    next hrange =>
      cases hresolve
      have hwritten := h.written _ _ hbound
      refine ⟨rfl, rfl, ?_, fun _ => ⟨_, hbound⟩⟩
      show operator.isRangeOnly = true ↔ raw.value.isRange = true
      simp [hwritten, hrange]

theorem Lawful.resolve_writable (h : operators.Lawful) {raw : RawComparison} {c : Comparison}
    (hresolve : operators.resolve raw = .ok c) (hpath : raw.path ≠ [])
    (hnames : ∀ name ∈ raw.path, IsRun isNameChar name.toList) (hvalue : raw.value.Writable) :
    c.Writable operators := by
  obtain ⟨hpath', hvalue', hrange, hbound⟩ := h.resolve_eq_ok hresolve
  exact ⟨hpath' ▸ hpath, hpath' ▸ hnames, hrange, hbound, hvalue' ▸ hvalue⟩

end OperatorTable

namespace Grammar

private theorem collapse_branching (level : Level) {terms : List Term} (hne : terms ≠ []) {w : Walk}
    {k : Walk → Formula Walk} (h : Formula.BranchingList 2 (Term.reachList terms w k)) :
    ((Term.collapse level.wrap terms).reach w k).Branching 2 := by
  match terms with
  | [] => exact absurd rfl hne
  | [term] => exact h.1
  | first :: second :: more =>
      have hlength : 2 ≤ (Term.reachList (first :: second :: more) w k).length := by
        simp [Term.reachList]
      cases level <;> exact ⟨hlength, h⟩

mutual
private theorem Chain.branching {level : Level} : ∀ (chain : Chain level) (offset : Nat) (w : Walk)
    {k : Walk → Formula Walk}, (∀ v, (k v).Branching 2) →
      Formula.BranchingList 2 (Term.reachList (chain.terms offset) w k)
  | .last part, offset, w, _, hk => ⟨part.branching offset w hk, trivial⟩
  | .cons part _ _ rest, offset, w, _, hk => ⟨part.branching offset w hk, rest.branching _ w hk⟩

private theorem Part.branching {level : Level} : ∀ (part : Part level) (offset : Nat) (w : Walk)
    {k : Walk → Formula Walk}, (∀ v, (k v).Branching 2) → ((part.term offset).reach w k).Branching 2
  | .conjunction chain, offset, w, _, hk =>
      collapse_branching .all (chain.terms_ne_nil offset) (chain.branching offset w hk)
  | .parentheses _ inner _, _, w, _, hk =>
      collapse_branching .any (inner.terms_ne_nil _) (inner.branching _ w hk)
  | .path _ steps _, _, _, _, hk => by
      rw [Part.term, Term.reach]
      exact steps.branching _ _ fun v => hk _

private theorem Steps.branching : ∀ (steps : Steps) (offset : Nat) (w : Walk)
    {k : Walk → Formula Walk}, (∀ v, (k v).Branching 2) →
      (Step.reach (steps.steps offset) w k).Branching 2
  | .done, _, w, _, hk => hk w
  | .segment _ rest, _, w, _, hk => rest.branching _ _ hk
  | .group _ inner _ rest, _, w, _, hk => by
      rw [Steps.steps, Step.reach]
      exact collapse_branching .any (inner.terms_ne_nil _)
        (inner.branching _ w fun v => rest.branching _ v hk)
end

theorem Derivation.branching (d : Derivation) {tree : Formula RawComparison}
    (h : d.term.expand = .ok tree) : tree.Branching 2 := by
  apply Formula.Branching.of_map (f := RawComparison.walk)
  rw [← Term.walks_of_expand h]
  exact collapse_branching .any (d.expression.terms_ne_nil _)
    (d.expression.branching _ .start fun _ => trivial)

end Grammar

namespace Filter

open Grammar

private theorem writable_of_mem_leaves {settings : FilterSettings} (hs : settings.Reachable)
    {source : String} {d : Derivation} (hd : d.Derives settings.operators source)
    (hnumber : d.Representable) {tree : Formula RawComparison} (hexpand : d.term.expand = .ok tree)
    {raw : RawComparison} (hraw : raw ∈ tree.leaves) {c : Comparison}
    (hresolve : settings.operators.resolve raw = .ok c) : c.Writable settings.operators := by
  obtain ⟨hpath, hnames, hending⟩ := Term.marks_of_mem_leaves hexpand hraw
  have hspelled := hd.spelled_marks hnumber
  obtain ⟨-, v, hwell, hread, hvalue⟩ := hspelled _ hending
  refine hs.lawful.resolve_writable hresolve hpath ?_ ?_
  · intro name hname
    exact hspelled _ (hnames name hname)
  · rw [show raw.value = v.value from hvalue.symm]
    exact v.value_writable hwell hread

/-- A filter that is read under any settings, however obtained, is one that can be written with them,
and the tree it comes from has at least two parts at every node. -/
theorem parse_writable {settings : FilterSettings} (hs : settings.Obtained) (source : String) :
    (∀ filter, parse source settings = .ok filter → filter.Writable settings.operators) ∧
    ∀ tree, parseTree source settings = .ok tree → tree.Branching 2 := by
  refine ⟨fun filter hfilter => ?_, fun tree htree => ?_⟩
  · obtain ⟨d, hd, hnumber, -, tree, resolved, hexpand, hresolved, halternatives⟩ :=
      parse_eq_ok_iff.mp hfilter
    have hbranching : tree.Branching 1 := (d.branching hexpand).mono (by decide)
    -- The alternatives are those of the tree, with every comparison resolved.
    have hmap : filter.alternatives.map (List.map .ok) =
        tree.alternatives.map (List.map settings.operators.resolve) := by
      rw [← halternatives, ← Formula.alternatives_map, ← hresolved, Formula.alternatives_map]
    have hpart : ∀ part ∈ filter.alternatives, ∃ choice ∈ tree.alternatives,
        choice.map settings.operators.resolve = part.map .ok := by
      intro part hpart
      rw [← List.mem_map, ← hmap]
      exact List.mem_map_of_mem hpart
    refine ⟨?_, fun part hmem => ?_, fun part hmem c hc => ?_⟩
    · intro hnil
      rw [hnil, List.map_nil, eq_comm, List.map_eq_nil_iff] at hmap
      exact Formula.alternatives_ne_nil hbranching hmap
    · obtain ⟨choice, hchoice, heq⟩ := hpart part hmem
      rintro rfl
      rw [List.map_nil, List.map_eq_nil_iff] at heq
      exact Formula.ne_nil_of_mem_alternatives hbranching hchoice heq
    · obtain ⟨choice, hchoice, heq⟩ := hpart part hmem
      have hok : .ok c ∈ choice.map settings.operators.resolve := by
        rw [heq]
        exact List.mem_map_of_mem hc
      obtain ⟨raw, hraw, hresolve⟩ := List.mem_map.mp hok
      have hleaf := (Formula.sublist_leaves_of_mem_alternatives hchoice).subset hraw
      exact writable_of_mem_leaves hs.reachable hd hnumber hexpand hleaf hresolve
  · obtain ⟨-, d, -, -, hexpand⟩ := parseTree_eq_ok_iff.mp htree
    exact d.branching hexpand

/-- The table with a token for `like`, and a depth of two. -/
def likeSettings : FilterSettings := ⟨OperatorTable.initial ++ [("~", .like)], 2⟩

/-- The reading of `a[b=-1.5,null OR c~"x"] AND d=1..99999999999999999999.125`. -/
def likeFilter : Filter :=
  let range := Value.range (.integer 1)
    (.decimal ⟨false, 99999999999999999999125, 3, by decide, by decide⟩)
  ⟨[
    [⟨["a", "b"], .equal, .set [.decimal ⟨true, 15, 1, by decide, by decide⟩, .null]⟩,
      ⟨["d"], .between, range⟩],
    [⟨["a", "c"], .like, .single (.text "x")⟩, ⟨["d"], .between, range⟩]]⟩

theorem parse_writable_document :
    FilterSettings.ofJson (.object [("operators", .object [("~", .string "like")]),
      ("maxDepth", .number (.integer 2))]) = .ok likeSettings ∧
    parse "a[b=-1.5,null OR c~\"x\"] AND d=1..99999999999999999999.125" likeSettings =
      .ok likeFilter ∧
    likeFilter.Writable likeSettings.operators ∧
    ∃ tree, parseTree "a[b=-1.5,null OR c~\"x\"] AND d=1..99999999999999999999.125" likeSettings =
      .ok tree ∧ tree.Branching 2 := by
  have hread : FilterSettings.ofJson (.object [("operators", .object [("~", .string "like")]),
      ("maxDepth", .number (.integer 2))]) = .ok likeSettings := by decide
  have hparse : parse "a[b=-1.5,null OR c~\"x\"] AND d=1..99999999999999999999.125" likeSettings =
      .ok likeFilter := by decide +kernel
  obtain ⟨hfilter, htree⟩ := parse_writable (.read hread)
    "a[b=-1.5,null OR c~\"x\"] AND d=1..99999999999999999999.125"
  refine ⟨hread, hparse, hfilter likeFilter hparse, ?_⟩
  cases hresult : parseTree "a[b=-1.5,null OR c~\"x\"] AND d=1..99999999999999999999.125"
      likeSettings with
  | ok tree => exact ⟨tree, rfl, htree tree hresult⟩
  | error error =>
      rw [parse, hresult] at hparse
      cases hparse

end Filter

end RequestQuery
