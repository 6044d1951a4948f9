import RequestQuery.Proofs.Filter.NestingLimit
import RequestQuery.Proofs.Filter.Shift

/-!
# Composition of filter texts

Filter texts can be put together as texts. Whatever two accepted texts look like, joined by `OR`, in
parentheses joined by `AND`, or in brackets behind a name they are read as what their own readings say.
The derivation of the longer text is built from the derivations of the parts, which only move.
-/

namespace RequestQuery

namespace Grammar

variable {operators : OperatorTable}

namespace Chain

variable {level : Level}

/-- Two chains joined by the connective of their level. -/
def append (before after : List Char) (right : Chain level) : Chain level → Chain level
  | .last part => .cons part before after right
  | .cons part before' after' rest => .cons part before' after' (append before after right rest)

variable {before after : List Char} {right : Chain level}

theorem chars_append (left : Chain level) : (append before after right left).chars =
    left.chars ++ (before ++ (level.letters ++ (after ++ right.chars))) := by
  fun_induction append before after right left with
  | case1 level right part => rfl
  | case2 level right part before' after' rest ih => simp [Chain.chars, ih]

theorem terms_append (left : Chain level) (offset : Nat) :
    (append before after right left).terms offset = left.terms offset ++
      right.terms (offset + byteLength (left.chars ++ (before ++ (level.letters ++ after)))) := by
  fun_induction append before after right left generalizing offset with
  | case1 level right part => rfl
  | case2 level right part before' after' rest ih =>
      simp [Chain.terms, Chain.chars, ih, Nat.add_assoc]

theorem wellFormed_append (hbefore : IsRun isSeparator before) (hafter : IsRun isSeparator after)
    (hright : right.WellFormed operators) (left : Chain level) (h : left.WellFormed operators) :
    (append before after right left).WellFormed operators := by
  fun_induction append before after right left with
  | case1 level right part => exact ⟨h, hbefore, hafter, hright⟩
  | case2 level right part before' after' rest ih => exact ⟨h.1, h.2.1, h.2.2.1, ih hright h.2.2.2⟩

theorem representable_append (hright : right.Representable) (left : Chain level)
    (h : left.Representable) : (append before after right left).Representable := by
  fun_induction append before after right left with
  | case1 level right part => exact ⟨h, hright⟩
  | case2 level right part before' after' rest ih => exact ⟨h.1, ih hright h.2⟩

theorem depth_append (left : Chain level) :
    (append before after right left).depth = max left.depth right.depth := by
  fun_induction append before after right left with
  | case1 level right part => rfl
  | case2 level right part before' after' rest ih => simp only [Chain.depth, ih, Nat.max_assoc]

end Chain

namespace Derivation

variable {d d' : Derivation} {f g : String}

/-- The derivation of two texts joined by `OR`. -/
def either (d d' : Derivation) : Derivation :=
  ⟨d.before, Chain.append (d.after ++ [' ']) (' ' :: d'.before) d'.expression d.expression, d'.after⟩

/-- The derivation of a text in parentheses, as a part of a conjunction. -/
def parenthesized (d : Derivation) : Part .all := .parentheses d.before d.expression d.after

/-- The derivation of parts joined by `AND`. -/
def ofParts (chain : Chain .all) : Derivation := ⟨[], .last (.conjunction chain), []⟩

/-- The derivation of a text in brackets behind a name. -/
def under (name : List Char) (d : Derivation) : Derivation :=
  ofParts (.last (.path name (.group d.before d.expression d.after .done) none))

theorem Derives.either (h : d.Derives operators f) (h' : d'.Derives operators g) :
    (d.either d').Derives operators (f ++ " OR " ++ g) := by
  obtain ⟨hbefore, hexpression, hafter⟩ := h.well
  obtain ⟨hbefore', hexpression', hafter'⟩ := h'.well
  refine ⟨⟨hbefore, ?_, hafter'⟩, ?_⟩
  · apply Chain.wellFormed_append _ _ hexpression' _ hexpression
    · exact ⟨by simp, by simpa using ⟨by simpa using hafter, rfl⟩⟩
    · exact ⟨by simp, by simpa using ⟨rfl, by simpa using hbefore'⟩⟩
  · simp [Derivation.chars, Derivation.either, Chain.chars_append, ← h.chars, ← h'.chars,
      Level.letters]

theorem Derives.ofParts {chain : Chain .all} (hwell : chain.WellFormed operators)
    (hchars : chain.chars = f.toList) : (ofParts chain).Derives operators f := by
  refine ⟨⟨rfl, hwell, rfl⟩, ?_⟩
  simpa [Derivation.chars, Derivation.ofParts, Chain.chars, Part.chars] using hchars

theorem Derives.parenthesized (h : d.Derives operators f) :
    d.parenthesized.WellFormed operators ∧ d.parenthesized.chars = '(' :: (f.toList ++ [')']) := by
  refine ⟨h.well, ?_⟩
  simp [Derivation.parenthesized, Part.chars, ← h.chars, Derivation.chars]

theorem Derives.under (h : d.Derives operators f) {name : String}
    (hname : IsRun isNameChar name.toList) :
    (d.under name.toList).Derives operators (name ++ "[" ++ f ++ "]") := by
  obtain ⟨hbefore, hexpression, hafter⟩ := h.well
  apply Derives.ofParts
  · exact ⟨hname, ⟨hbefore, hexpression, hafter, trivial⟩, by simp⟩
  · simp [Chain.chars, Part.chars, Steps.chars, ← h.chars, Derivation.chars]

theorem Derives.check_iff (h : d.Derives operators f) {limit : Nat} :
    Nesting.check f limit = .ok () ↔ d.depth ≤ limit := by
  rw [← d.firstPast_eq_none, Nesting.check, h.firstTooDeep]
  cases firstPast limit d.openers <;> simp

end Derivation

end Grammar

namespace Term

variable {operators : OperatorTable}

private theorem forall₂_means {terms : List Term} {trees : List (Formula RawComparison)}
    {resolved : List (Formula Comparison)}
    (hleaves : leavesList terms = .ok (trees.map (Formula.map RawComparison.leaf)))
    (hresolve : trees.map (Formula.map operators.resolve) = resolved.map (Formula.map .ok)) :
    List.Forall₂ (Means operators) terms (resolved.map Formula.alternatives) := by
  induction terms generalizing trees resolved with
  | nil =>
      cases trees <;> cases hleaves
      cases resolved <;> cases hresolve
      exact .nil
  | cons term rest ih =>
      simp only [leavesList] at hleaves
      split at hleaves
      next part hpart =>
        split at hleaves
        next parts hparts =>
          cases trees with
          | nil => cases hleaves
          | cons tree trees =>
              cases resolved with
              | nil => cases hresolve
              | cons first more =>
                  simp only [List.map_cons, Except.ok.injEq, List.cons.injEq] at hleaves hresolve
                  obtain ⟨rfl, rfl⟩ := hleaves
                  exact .cons ⟨tree, first, expand_eq_ok_iff.mpr hpart, hresolve.1, rfl⟩
                    (ih hparts hresolve.2)
        next => cases hleaves
      next => cases hleaves

theorem Means.of_any {terms : List Term} {alternatives : List (List Comparison)}
    (h : (Term.any terms).Means operators alternatives) :
    ∃ meanings, List.Forall₂ (Means operators) terms meanings ∧
      meanings.flatten = alternatives := by
  obtain ⟨tree, resolved, hexpand, hresolve, rfl⟩ := h
  rw [expand_eq_ok_iff] at hexpand
  simp only [leaves] at hexpand
  split at hexpand
  next parts hparts =>
    cases tree <;> simp only [Formula.map_any, Formula.map_all, Formula.map_leaf, Except.ok.injEq,
      Formula.any.injEq, reduceCtorEq] at hexpand
    next trees =>
      subst hexpand
      cases resolved <;> simp only [Formula.map_any, Formula.map_all, Formula.map_leaf,
        Formula.any.injEq, reduceCtorEq] at hresolve
      next resolved =>
        refine ⟨_, forall₂_means hparts hresolve, ?_⟩
        rw [Formula.alternatives, Formula.anyAlternatives_eq_flatMap, List.flatMap_def]
  next => cases hexpand

theorem means_collapse_append {left right : List Term} {meaning meaning' : List (List Comparison)}
    (hleft : (collapse .any left).Means operators meaning)
    (hright : (collapse .any right).Means operators meaning') :
    (collapse .any (left ++ right)).Means operators (meaning ++ meaning') := by
  have hany : ∀ {terms alternatives}, (collapse .any terms).Means operators alternatives →
      ∃ meanings, List.Forall₂ (Means operators) terms meanings ∧
        meanings.flatten = alternatives := by
    intro terms alternatives h
    match terms, h with
    | [term], h => exact ⟨[alternatives], .cons h .nil, by simp⟩
    | [], h | _ :: _ :: _, h => exact h.of_any
  obtain ⟨lefts, hlefts, rfl⟩ := hany hleft
  obtain ⟨rights, hrights, rfl⟩ := hany hright
  have hjoined := Grammar.collapse_means .any (List.rel_append hlefts hrights)
  simpa [Grammar.Level.joins, Grammar.Level.wrap] using hjoined

theorem Means.under {term : Term} {alternatives : List (List Comparison)}
    (h : term.Means operators alternatives) (name : Spanned String) (span : Span) :
    (Term.path name [.group term] none span).Means operators
      (alternatives.map (List.map fun c => { c with path := name.value :: c.path })) := by
  apply h.follow (s := fun raw => { raw with path := name.value :: raw.path })
  · intro tree htree
    simp only [leaves, Step.walk, htree, Formula.substitute, Leaf.branch, Leaf.checkOpen,
      Formula.map_map]
    rfl
  · intro raw c hraw
    obtain ⟨hpath, hunder⟩ := OperatorTable.resolve_congr hraw
      { raw with path := name.value :: raw.path } rfl rfl
    rw [hunder, hpath]

end Term

namespace Filter

open Grammar

variable {settings : FilterSettings}

/-- A text is read as a filter exactly if it has a derivation that is not too deep and stands for it. -/
theorem parse_eq_ok_iff {source : String} {filter : Filter} :
    parse source settings = .ok filter ↔
      ∃ d : Derivation, d.Derives settings.operators source ∧ d.Representable ∧
        d.depth ≤ settings.maxDepth ∧ d.term.Means settings.operators filter.alternatives := by
  constructor
  · intro h
    rw [parse] at h
    split at h
    next tree htree =>
      obtain ⟨hcheck, d, hderives, hnumber, hexpand⟩ := parseTree_eq_ok_iff.mp htree
      obtain ⟨resolved, hresolve, rfl⟩ := normalize_eq_ok_iff.mp h
      exact ⟨d, hderives, hnumber, hderives.check_iff.mp hcheck, tree, resolved, hexpand,
        Formula.traverse_eq_ok_iff.mp hresolve, rfl⟩
    next => cases h
  · rintro ⟨d, hderives, hnumber, hdepth, hmeans⟩
    exact parse_eq_ok_of_derives hderives hnumber hdepth hmeans

private theorem parse_either {f g : String} {E F : Filter} (hf : parse f settings = .ok E)
    (hg : parse g settings = .ok F) :
    parse (f ++ " OR " ++ g) settings = .ok ⟨E.alternatives ++ F.alternatives⟩ := by
  obtain ⟨d, hd, hnumber, hdepth, hmeans⟩ := parse_eq_ok_iff.mp hf
  obtain ⟨d', hd', hnumber', hdepth', hmeans'⟩ := parse_eq_ok_iff.mp hg
  apply parse_eq_ok_of_derives (hd.either hd')
  · exact Chain.representable_append hnumber' _ hnumber
  · simpa [Derivation.either, Chain.depth_append] using ⟨hdepth, hdepth'⟩
  · change (Term.collapse .any (Chain.terms _ _)).Means _ _
    rw [Derivation.either, Chain.terms_append]
    apply Term.means_collapse_append hmeans
    -- The second text stands further on than it does alone, the first where it did.
    apply Chain.means_of_le hmeans'
    simp only [byteLength_append, byteLength_cons]
    omega

private theorem parenthesized_means {operators : OperatorTable} {d : Derivation}
    {alternatives : List (List Comparison)} (h : d.term.Means operators alternatives) (offset : Nat) :
    (d.parenthesized.term offset).Means operators alternatives := by
  apply Chain.means_of_le h
  rw [byteLength_cons]
  omega

private theorem parse_parenthesized {f : String} {E : Filter} (hf : parse f settings = .ok E)
    (hcheck : Nesting.check ("(" ++ f ++ ")") settings.maxDepth = .ok ()) :
    parse ("(" ++ f ++ ")") settings = .ok E := by
  obtain ⟨d, hd, hnumber, -, hmeans⟩ := parse_eq_ok_iff.mp hf
  have hderives : (Derivation.ofParts (.last d.parenthesized)).Derives settings.operators
      ("(" ++ f ++ ")") := by
    apply Derivation.Derives.ofParts
    · exact hd.parenthesized.1
    · simp [Chain.chars, hd.parenthesized.2]
  exact parse_eq_ok_of_derives hderives hnumber (hderives.check_iff.mp hcheck)
    (parenthesized_means hmeans 0)

private theorem parse_both {f g : String} {E F : Filter} (hf : parse f settings = .ok E)
    (hg : parse g settings = .ok F)
    (hcheck : Nesting.check ("(" ++ f ++ ") AND (" ++ g ++ ")") settings.maxDepth = .ok ()) :
    parse ("(" ++ f ++ ") AND (" ++ g ++ ")") settings =
      .ok ⟨E.alternatives.flatMap fun left => F.alternatives.map fun right => left ++ right⟩ := by
  obtain ⟨d, hd, hnumber, -, hmeans⟩ := parse_eq_ok_iff.mp hf
  obtain ⟨d', hd', hnumber', -, hmeans'⟩ := parse_eq_ok_iff.mp hg
  let parts : Chain .all := .cons d.parenthesized [' '] [' '] (.last d'.parenthesized)
  have hderives : (Derivation.ofParts parts).Derives settings.operators
      ("(" ++ f ++ ") AND (" ++ g ++ ")") := by
    apply Derivation.Derives.ofParts
    · exact ⟨hd.parenthesized.1, by decide, by decide, hd'.parenthesized.1⟩
    · simp [parts, Chain.chars, hd.parenthesized.2, hd'.parenthesized.2, Level.letters]
  apply parse_eq_ok_of_derives hderives ⟨hnumber, hnumber'⟩ (hderives.check_iff.mp hcheck)
  have hcross : cross [E.alternatives, F.alternatives] =
      E.alternatives.flatMap fun left => F.alternatives.map fun right => left ++ right := by
    rw [cross, cross_singleton]
  rw [← hcross]
  exact Grammar.collapse_means .all (.cons (parenthesized_means hmeans _)
    (.cons (parenthesized_means hmeans' _) .nil))

private theorem parse_under {f : String} {E : Filter} (hf : parse f settings = .ok E) {name : String}
    (hname : IsRun isNameChar name.toList)
    (hcheck : Nesting.check (name ++ "[" ++ f ++ "]") settings.maxDepth = .ok ()) :
    parse (name ++ "[" ++ f ++ "]") settings =
      .ok ⟨E.alternatives.map (List.map fun c => { c with path := name :: c.path })⟩ := by
  obtain ⟨d, hd, hnumber, -, hmeans⟩ := parse_eq_ok_iff.mp hf
  have hderives := hd.under hname
  apply parse_eq_ok_of_derives hderives ⟨⟨hnumber, trivial⟩, by simp⟩ (hderives.check_iff.mp hcheck)
  change (Term.path ⟨String.ofList name.toList, _⟩ [.group (d.expression.term _)] none _).Means _ _
  rw [String.ofList_toList]
  refine Term.Means.under (Chain.means_of_le hmeans ?_) ⟨name, _⟩ _
  rw [byteLength_cons]
  omega

/-- Reading is compositional. Joined by `OR`, two accepted texts are read as the alternatives of the
first and then those of the second, however deep either nests. Where the longer text does not nest too
deep, a text in parentheses is read as it is alone, two of them joined by `AND` as every choice of an
alternative of the first and one of the second, and a text in brackets behind a name as its
alternatives with the name before every path. -/
theorem parse_compositional (settings : FilterSettings) {f g : String} {E F : Filter}
    (hf : parse f settings = .ok E) (hg : parse g settings = .ok F) :
    parse (f ++ " OR " ++ g) settings = .ok ⟨E.alternatives ++ F.alternatives⟩ ∧
    (Nesting.check ("(" ++ f ++ ")") settings.maxDepth = .ok () →
      parse ("(" ++ f ++ ")") settings = .ok E) ∧
    (Nesting.check ("(" ++ f ++ ") AND (" ++ g ++ ")") settings.maxDepth = .ok () →
      parse ("(" ++ f ++ ") AND (" ++ g ++ ")") settings =
        .ok ⟨E.alternatives.flatMap fun left => F.alternatives.map fun right => left ++ right⟩) ∧
    ∀ name : String, IsRun isNameChar name.toList →
      Nesting.check (name ++ "[" ++ f ++ "]") settings.maxDepth = .ok () →
        parse (name ++ "[" ++ f ++ "]") settings =
          .ok ⟨E.alternatives.map (List.map fun c => { c with path := name :: c.path })⟩ :=
  ⟨parse_either hf hg, parse_parenthesized hf, parse_both hf hg, fun _ => parse_under hf⟩

theorem parse_compositional_quotes :
    parse "a=\"(\" OR b=null  OR c[d=true OR e=false]" .initial = .ok ⟨[
      [⟨["a"], .equal, .single (.text "(")⟩], [⟨["b"], .equal, .single .null⟩],
      [⟨["c", "d"], .equal, .single (.boolean true)⟩],
      [⟨["c", "e"], .equal, .single (.boolean false)⟩]]⟩ ∧
    parse "(a=\"(\" OR b=null )" .initial = .ok ⟨[
      [⟨["a"], .equal, .single (.text "(")⟩], [⟨["b"], .equal, .single .null⟩]]⟩ ∧
    parse "(a=\"(\" OR b=null ) AND (c[d=true OR e=false])" .initial = .ok ⟨[
      [⟨["a"], .equal, .single (.text "(")⟩, ⟨["c", "d"], .equal, .single (.boolean true)⟩],
      [⟨["a"], .equal, .single (.text "(")⟩, ⟨["c", "e"], .equal, .single (.boolean false)⟩],
      [⟨["b"], .equal, .single .null⟩, ⟨["c", "d"], .equal, .single (.boolean true)⟩],
      [⟨["b"], .equal, .single .null⟩, ⟨["c", "e"], .equal, .single (.boolean false)⟩]]⟩ ∧
    parse "OR[a=\"(\" OR b=null ]" .initial = .ok ⟨[
      [⟨["OR", "a"], .equal, .single (.text "(")⟩], [⟨["OR", "b"], .equal, .single .null⟩]]⟩ := by
  have hf : parse "a=\"(\" OR b=null " .initial = .ok ⟨[
      [⟨["a"], .equal, .single (.text "(")⟩], [⟨["b"], .equal, .single .null⟩]]⟩ := by
    decide +kernel
  have hg : parse "c[d=true OR e=false]" .initial = .ok ⟨[
      [⟨["c", "d"], .equal, .single (.boolean true)⟩],
      [⟨["c", "e"], .equal, .single (.boolean false)⟩]]⟩ := by
    decide +kernel
  obtain ⟨heither, hsingle, hboth, hunder⟩ := parse_compositional .initial hf hg
  exact ⟨heither, hsingle (by decide), hboth (by decide), hunder "OR" (by decide) (by decide)⟩

end Filter

end RequestQuery
