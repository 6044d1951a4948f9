import RequestQuery.Proofs.Filter.Expansion
import RequestQuery.Proofs.Filter.Normalization
import RequestQuery.Proofs.Filter.Unambiguity
import RequestQuery.Proofs.Reading.Stops

/-!
# The faults of filters

Every fault of a filter text is a part of the text. Those of syntax come from the check of nesting, the
grammar and the expansion of brackets; the only other one is a range behind a token that takes none,
and it is found at that token. A token without an operator is never met, since the grammar asks the
same table.
-/

namespace RequestQuery

namespace Parser

theorem tracks_stringChar : stringChar.Tracks := by
  intro cursor
  unfold stringChar
  split
  next => exact Stop.bare_behind cursor
  next c rest hrest =>
    have hbehind : cursor.Reaches ⟨cursor.offset + c.utf8Size, rest⟩ := ⟨[c], by simp [hrest], by simp⟩
    split
    next => exact Stop.bare_behind cursor
    next =>
      split
      next =>
        split
        next d rest =>
          split
          next => exact hbehind.trans ⟨[d], by simp, by simp⟩
          next => exact ⟨hbehind, fun _ h => nomatch h⟩
        next => exact ⟨hbehind, fun _ h => nomatch h⟩
      next => exact hbehind

theorem tracks_string : string.Tracks :=
  (tracks_char _).bind fun _ => tracks_stringChar.many.bind fun _ =>
    ((tracks_char _).commit.labelled _).bind fun _ => tracks_pure _

theorem tracks_numeral : numeral.Tracks :=
  (tracks_char _).optional.bind fun _ => (tracks_run1 _).bind fun _ =>
    ((tracks_char _).bind fun _ => tracks_run1 _).optional.bind fun _ => tracks_pure _

private theorem text_of_literal {n : Numeral} {fault : NumberFault} (h : n.literal = .error fault) :
    fault.text = String.ofList n.chars := by
  unfold Numeral.literal at h
  grind [NumberFault.text]

theorem tracks_number : number.Tracks := by
  intro cursor
  have hcursor := tracks_numeral cursor
  unfold number
  cases hread : numeral cursor with
  | done n next =>
      rw [hread] at hcursor
      dsimp only
      cases hliteral : n.literal with
      | ok literal => exact hcursor
      | error fault =>
          refine ⟨.refl cursor, ?_⟩
          intro fault' hfault
          cases hfault
          rw [text_of_literal hliteral, String.toList_ofList, (Grammar.numeral_eq_done hread).2.rest]
          exact List.prefix_append ..
  | refused stop | failed stop => rwa [hread] at hcursor

theorem tracks_keyword : keyword.Tracks := by
  intro cursor
  have hcursor := tracks_run1 isNameChar cursor
  unfold keyword
  cases hread : run1 isNameChar cursor with
  | done letters next =>
      rw [hread] at hcursor
      dsimp only
      split
      next => exact hcursor
      next => exact Stop.bare_behind cursor
  | refused stop | failed stop => rwa [hread] at hcursor

theorem tracks_literal : literal.Tracks :=
  ((tracks_string.bind fun _ => tracks_pure _).either (tracks_number.either tracks_keyword)).labelled _

theorem tracks_value : value.Tracks := by
  apply tracks_literal.bind
  intro first
  apply ((tracks_word _).bind fun _ => tracks_literal.commit).optional.bind
  intro last
  cases last with
  | some last => exact tracks_pure _
  | none =>
      apply ((tracks_char _).bind fun _ => tracks_literal.commit).many.bind
      intro more
      split
      next => exact tracks_pure _
      next => exact tracks_pure _

section Expressions

variable {operators : OperatorTable} {inner : Parser Term}

theorem tracks_operatorToken : (operatorToken operators).Tracks := by
  intro cursor
  have hcursor := tracks_textOf isOperatorChar cursor
  unfold operatorToken
  cases hread : textOf isOperatorChar cursor with
  | done token next =>
      rw [hread] at hcursor
      dsimp only
      split
      next => exact hcursor
      next => exact Stop.bare_behind cursor
  | refused stop | failed stop => rwa [hread] at hcursor

theorem tracks_ending : (ending operators).Tracks :=
  tracks_operatorToken.spanned.bind fun _ => tracks_value.commit.bind fun _ => tracks_pure _

theorem Tracks.bracketed (h : inner.Tracks) (opener closer : Char) (label : String) :
    (bracketed opener closer label inner).Tracks :=
  (tracks_char _).bind fun _ => (tracks_separators.bind fun _ => h.bind fun _ =>
    tracks_separators.bind fun _ => ((tracks_char _).labelled _).bind fun _ => tracks_pure _).commit

theorem Tracks.pathStep (h : inner.Tracks) : (pathStep inner).Tracks :=
  ((tracks_char _).bind fun _ => tracks_name.commit.bind fun _ => tracks_pure _).either
    ((h.bracketed _ _ _).bind fun _ => tracks_pure _)

theorem Tracks.term (h : inner.Tracks) : (term operators inner).Tracks := by
  have hparts : (pathParts operators inner).Tracks :=
    tracks_name.bind fun _ => h.pathStep.many.bind fun _ => tracks_ending.optional.bind fun _ =>
      tracks_pure _
  exact (h.bracketed _ _ _).either (hparts.spanned.bind fun _ => tracks_pure _)

theorem Tracks.joined {part : Parser Term} (h : part.Tracks) (letters : List Char)
    (wrap : List Term → Term) : (joined letters wrap part).Tracks :=
  h.bind fun _ => ((tracks_connective _).bind fun _ => h.commit).many.bind fun _ => tracks_pure _

theorem tracks_expression (fuel : Nat) : (expression operators fuel).Tracks := by
  induction fuel with
  | zero => exact tracks_refuse
  | succ fuel ih => exact (ih.term.joined _ _).joined _ _

theorem tracks_filterText (fuel : Nat) : (filterText operators fuel).Tracks :=
  tracks_separators.bind fun _ => (tracks_expression fuel).bind fun _ =>
    tracks_separators.bind fun _ => (tracks_atEnd.labelled _).bind fun _ => tracks_pure _

end Expressions

end Parser

/-- The token is bound and stands where its span says. -/
def Ending.Placed (operators : OperatorTable) (source : List Char) (ending : Ending) : Prop :=
  Slices source ending.1.span ending.1.value.toList ∧ operators.has ending.1.value = true

structure Leaf.Placed (operators : OperatorTable) (source : List Char) (leaf : Leaf) : Prop where
  ending : ∀ e ∈ leaf.ending, Ending.Placed operators source e
  span : ∃ text, Slices source leaf.span text

def RawComparison.Placed (operators : OperatorTable) (source : List Char) (raw : RawComparison) :
    Prop :=
  Ending.Placed operators source (raw.token, raw.value)

section Expansion

variable {operators : OperatorTable} {source : List Char}

abbrev LeavesPlaced (operators : OperatorTable) (source : List Char) :
    Except Fault (Formula Leaf) → Prop :=
  Meets (fun formula => ∀ leaf ∈ formula.leaves, leaf.Placed operators source)
    (Fault.OfSyntax source)

private theorem Leaf.extend_placed {leaf : Leaf} (h : leaf.Placed operators source)
    {name : Spanned String} (hname : ∃ text, Slices source name.span text) :
    LeavesPlaced operators source (leaf.extend name) := by
  obtain ⟨path, _ | ending, span⟩ := leaf
  · simpa [Leaf.extend, Leaf.checkOpen, LeavesPlaced, Meets] using ⟨h.ending, h.span⟩
  · exact ⟨rfl, hname⟩

private theorem Leaf.branch_placed {leaf : Leaf} {inner : Formula Leaf} {place : Span}
    (hplace : ∃ text, Slices source place text)
    (hinner : ∀ below ∈ inner.leaves, below.Placed operators source) :
    LeavesPlaced operators source (leaf.branch place inner) := by
  obtain ⟨path, _ | ending, span⟩ := leaf
  · intro below hbelow
    rw [Formula.leaves_map, List.mem_map] at hbelow
    obtain ⟨own, hown, rfl⟩ := hbelow
    exact ⟨(hinner own hown).ending, (hinner own hown).span⟩
  · exact ⟨rfl, hplace⟩

private theorem Leaf.close_placed {leaf : Leaf} (h : leaf.Placed operators source) {ending : Ending}
    (hending : ending.Placed operators source) :
    LeavesPlaced operators source (leaf.close ending) := by
  obtain ⟨path, _ | own, span⟩ := leaf
  · intro closed hclosed
    rw [Formula.leaves_leaf, List.mem_singleton] at hclosed
    subst hclosed
    refine ⟨?_, h.span⟩
    intro e he
    cases he
    exact hending
  · exact ⟨rfl, _, hending.1⟩

private abbrev ListPlaced (operators : OperatorTable) (source : List Char) :
    Except Fault (List (Formula Leaf)) → Prop :=
  Meets (fun parts => ∀ leaf ∈ parts.flatMap Formula.leaves, leaf.Placed operators source)
    (Fault.OfSyntax source)

namespace Grammar

private theorem start_collapse (level : Level) (term : Term) (terms : List Term) :
    (Term.collapse level.wrap (term :: terms)).start = term.start := by
  cases terms with
  | nil => rfl
  | cons => cases level <;> rfl

private theorem leaves_collapse (level : Level) {terms : List Term}
    (h : ListPlaced operators source (Term.leavesList terms)) :
    LeavesPlaced operators source (Term.collapse level.wrap terms).leaves := by
  match terms with
  | [term] =>
      change LeavesPlaced operators source term.leaves
      simp only [Term.leavesList] at h
      cases hterm : term.leaves with
      | ok formula => simpa [hterm, Meets] using h
      | error fault => simpa [hterm, Meets] using h
  | [] | _ :: _ :: _ =>
      cases level <;>
      · simp only [Term.collapse, Level.wrap, Term.leaves]
        refine h.elim (fun parts hparts => ?_) fun _ h => h
        simpa [Meets] using hparts

mutual
private theorem Chain.start_placed {level : Level} : ∀ (chain : Chain level)
    (before after : List Char), source = before ++ (chain.chars ++ after) →
      ∃ text, Slices source (chain.term (byteLength before)).start text
  | .last part, before, after, hsource => part.start_placed before after hsource
  | .cons part before' after' rest, before, after, hsource => by
      rw [Chain.term, Chain.terms, start_collapse]
      apply part.start_placed before (before' ++ (level.letters ++ (after' ++ (rest.chars ++ after))))
      simpa [Chain.chars] using hsource

private theorem Part.start_placed {level : Level} : ∀ (part : Part level)
    (before after : List Char), source = before ++ (part.chars ++ after) →
      ∃ text, Slices source (part.term (byteLength before)).start text
  | .conjunction chain, before, after, hsource => chain.start_placed before after hsource
  | .parentheses before' inner after', before, after, hsource => by
      have hinner := inner.start_placed (before ++ '(' :: before') (after' ++ ')' :: after)
        (by simpa [Part.chars] using hsource)
      rwa [byteLength_append] at hinner
  | .path head steps ending, before, after, hsource => by
      refine ⟨head, before, steps.chars ++ (ending.elim [] EndingSpelling.chars ++ after), ?_, rfl⟩
      simpa [Part.chars] using hsource
end

mutual
private theorem Chain.leaves_placed {level : Level} : ∀ (chain : Chain level),
    chain.WellFormed operators → ∀ before after, source = before ++ (chain.chars ++ after) →
      ListPlaced operators source (Term.leavesList (chain.terms (byteLength before)))
  | .last part, hwell, before, after, hsource => by
      simp only [Chain.terms, Term.leavesList]
      refine (part.leaves_placed hwell before after hsource).elim (fun formula hpart => ?_) fun _ h => h
      simpa [Meets] using hpart
  | .cons part before' after' rest, hwell, before, after, hsource => by
      obtain ⟨hwellPart, -, -, hwellRest⟩ := hwell
      have hpart := part.leaves_placed hwellPart before
        (before' ++ (level.letters ++ (after' ++ (rest.chars ++ after))))
        (by simpa [Chain.chars] using hsource)
      have hrest := rest.leaves_placed hwellRest
        (before ++ (part.chars ++ (before' ++ (level.letters ++ after')))) after
        (by simpa [Chain.chars] using hsource)
      rw [byteLength_append] at hrest
      simp only [Chain.terms, Term.leavesList]
      refine hpart.elim (fun formula hfirst => ?_) fun _ h => h
      refine hrest.elim (fun formulas hmore => ?_) fun _ h => h
      simp only [Meets, List.flatMap_cons, List.forall_mem_append]
      exact ⟨hfirst, hmore⟩

private theorem Part.leaves_placed {level : Level} : ∀ (part : Part level),
    part.WellFormed operators → ∀ before after, source = before ++ (part.chars ++ after) →
      LeavesPlaced operators source (part.term (byteLength before)).leaves
  | .conjunction chain, hwell, before, after, hsource =>
      leaves_collapse .all (chain.leaves_placed hwell before after hsource)
  | .parentheses before' inner after', hwell, before, after, hsource => by
      have hinner := inner.leaves_placed hwell.2.1 (before ++ '(' :: before') (after' ++ ')' :: after)
        (by simpa [Part.chars] using hsource)
      rw [byteLength_append] at hinner
      exact leaves_collapse .any hinner
  | .path head steps ending, hwell, before, after, hsource => by
      obtain ⟨-, hsteps, hending⟩ := hwell
      have hspan : Slices source
          ⟨byteLength before, byteLength before +
            byteLength (head ++ (steps.chars ++ ending.elim [] EndingSpelling.chars))⟩
          (head ++ (steps.chars ++ ending.elim [] EndingSpelling.chars)) :=
        ⟨before, after, hsource, rfl⟩
      -- The walk starts with one leaf, which is placed at the whole path.
      have hwalk := steps.walk_placed hsteps (before ++ head)
        (ending.elim [] EndingSpelling.chars ++ after) (by simpa [Part.chars] using hsource)
        (.leaf ⟨[String.ofList head], none, _⟩) (by simpa using ⟨by simp, _, hspan⟩)
      rw [byteLength_append] at hwalk
      simp only [Part.term, Term.leaves]
      refine hwalk.elim (fun walked hwalked => ?_) fun _ h => h
      cases ending with
      | none => exact hwalked
      | some e =>
          apply Formula.meets_substitute
          intro leaf hleaf
          apply Leaf.close_placed (hwalked leaf hleaf)
          have hwellEnding := hending e rfl
          refine ⟨⟨before ++ (head ++ steps.chars), e.value.chars ++ after, ?_, ?_⟩, ?_⟩
          · simpa [Part.chars, EndingSpelling.chars, EndingSpelling.ending] using hsource
          · simp [EndingSpelling.ending, Nat.add_assoc]
          · exact hwellEnding.2.1

private theorem Steps.walk_placed : ∀ (steps : Steps), steps.WellFormed operators →
    ∀ before after, source = before ++ (steps.chars ++ after) → ∀ formula : Formula Leaf,
      (∀ leaf ∈ formula.leaves, leaf.Placed operators source) →
        LeavesPlaced operators source (Step.walk (steps.steps (byteLength before)) formula)
  | .done, _, _, _, _, _, hformula => hformula
  | .segment name rest, hwell, before, after, hsource, formula, hformula => by
      have hname : Slices source ⟨byteLength before + byteLength ['.'],
          byteLength before + byteLength ['.'] + byteLength name⟩ name := by
        refine ⟨before ++ ['.'], rest.chars ++ after, ?_, by simp⟩
        simpa [Steps.chars] using hsource
      have hextend : LeavesPlaced operators source (formula.substitute (Leaf.extend
          ⟨String.ofList name, ⟨byteLength before + byteLength ['.'],
            byteLength before + byteLength ['.'] + byteLength name⟩⟩)) :=
        Formula.meets_substitute fun leaf hleaf => Leaf.extend_placed (hformula leaf hleaf) ⟨_, hname⟩
      simp only [Steps.steps, Step.walk]
      refine hextend.elim (fun next hnext => ?_) fun _ h => h
      have hrest := rest.walk_placed hwell.2 (before ++ '.' :: name) after
        (by simpa [Steps.chars] using hsource) next hnext
      rwa [byteLength_append] at hrest
  | .group before' inner after' rest, hwell, before, after, hsource, formula, hformula => by
      have hfront : source = before ++ '[' :: before' ++
          (inner.chars ++ (after' ++ ']' :: (rest.chars ++ after))) := by
        simpa [Steps.chars] using hsource
      have hstart := inner.start_placed _ _ hfront
      have hinner := leaves_collapse .any (inner.leaves_placed hwell.2.1 _ _ hfront)
      rw [byteLength_append] at hstart hinner
      simp only [Steps.steps, Step.walk]
      refine hinner.elim (fun below hbelow => ?_) fun _ h => h
      have hbranch : LeavesPlaced operators source (formula.substitute (Leaf.branch
          (Term.collapse .any (inner.terms (byteLength before + byteLength ('[' :: before')))).start
          below)) :=
        Formula.meets_substitute fun leaf _ => Leaf.branch_placed hstart hbelow
      dsimp only
      refine hbranch.elim (fun next hnext => ?_) fun _ h => h
      have hrest := rest.walk_placed hwell.2.2.2
        (before ++ '[' :: (before' ++ (inner.chars ++ (after' ++ [']'])))) after
        (by simpa [Steps.chars] using hsource) next hnext
      rwa [byteLength_append] at hrest
end

end Grammar

private theorem Leaf.finish_placed {leaf : Leaf} (h : leaf.Placed operators source) :
    Meets (RawComparison.Placed operators source) (Fault.OfSyntax source) leaf.finish := by
  obtain ⟨path, _ | ⟨token, value⟩, span⟩ := leaf
  · obtain ⟨text, hslices⟩ := h.span
    exact ⟨rfl, [], hslices.stop⟩
  · exact h.ending _ rfl

theorem Term.expand_placed {source : String} {term : Term}
    (hparse : Term.parse operators source = .ok term) :
    Meets (fun tree => ∀ raw ∈ tree.leaves, raw.Placed operators source.toList)
      (Fault.OfSyntax source.toList) term.expand := by
  obtain ⟨d, ⟨-, hwell, -⟩, -, hchars, rfl⟩ := Grammar.exists_derivation hparse
  have hleaves := Grammar.leaves_collapse .any
    (d.expression.leaves_placed hwell d.before d.after hchars.symm)
  change LeavesPlaced operators source.toList d.term.leaves at hleaves
  unfold Term.expand
  refine hleaves.elim (fun formula hformula => ?_) fun _ h => h
  apply Formula.meets_substitute
  intro leaf hleaf
  refine (Leaf.finish_placed (hformula leaf hleaf)).elim (fun raw hraw => ?_) fun _ h => h
  simpa [Meets] using hraw

end Expansion

namespace Filter

/-- The comparisons of a text are placed in it, or else there is a fault of syntax. -/
theorem treeFault_placed (settings : FilterSettings) (source : String) :
    Meets (fun tree => ∀ raw ∈ tree.leaves, raw.Placed settings.operators source.toList)
      (Fault.OfSyntax source.toList) (treeFault settings source) := by
  unfold treeFault
  split
  next => exact ⟨rfl, [], .zero _⟩
  next =>
    split
    next hcheck => exact Nesting.check_error hcheck
    next =>
      split
      next hparse => exact (Parser.tracks_filterText _).parse_error hparse
      next hparse => exact Term.expand_placed hparse

/-- A comparison that asks for a range by a token that takes none. -/
structure Misranged (settings : FilterSettings) (source : String) (raw : RawComparison) : Prop where
  occurs : ∃ tree, parseTree source settings = .ok tree ∧ raw ∈ tree.leaves
  range : raw.value.isRange = true
  token : settings.Reachable → raw.token.value ≠ "=" ∧ raw.token.value ≠ "!="
  place : Slices source.toList raw.token.span raw.token.value.toList

variable {settings : FilterSettings} {source : String}

/-- A bound token is refused for a range only. -/
private theorem resolve_error {operators : OperatorTable} {raw : RawComparison} {fault : Fault}
    (hbound : operators.has raw.token.value = true) (h : operators.resolve raw = .error fault) :
    raw.value.isRange = true ∧ fault = ⟨.rangeOperator raw.token.value, raw.token.span⟩ := by
  obtain ⟨operator, hfind⟩ := Option.isSome_iff_exists.mp hbound
  simp only [OperatorTable.resolve, hfind] at h
  split at h
  next hrange =>
    split at h <;> cases h
    exact ⟨hrange, rfl⟩
  next => cases h

private theorem normalize_error {tree : Formula RawComparison} {error : QueryError}
    (htree : parseTree source settings = .ok tree)
    (h : normalize tree settings source = .error error) :
    ∃ raw, Misranged settings source raw ∧ error = .semantic
      (Fault.finding ⟨.rangeOperator raw.token.value, raw.token.span⟩ source) := by
  obtain ⟨fault, htraverse, rfl⟩ := normalize_eq_error_iff.mp h
  -- The fault is that of the first comparison that is refused.
  have hrefusal := Formula.refusal_eq_some.mpr htraverse
  rw [Formula.refusal_traverse] at hrefusal
  obtain ⟨raw, hraw, hrefused⟩ := List.exists_of_findSome?_eq_some hrefusal
  have hresolve : settings.operators.resolve raw = .error fault :=
    Formula.refusal_eq_some.mp hrefused
  have hplaced := treeFault_placed settings source
  rw [report_eq_ok.mp htree] at hplaced
  obtain ⟨hslices, hbound⟩ := hplaced raw hraw
  obtain ⟨hrange, rfl⟩ := resolve_error hbound hresolve
  refine ⟨raw, ⟨⟨tree, htree, hraw⟩, hrange, ?_, hslices⟩, rfl⟩
  intro hreachable
  rw [← not_or]
  intro htoken
  have haccepts : settings.operators.Accepts raw :=
    ⟨Option.isSome_iff_exists.mp hbound, fun _ => htoken⟩
  obtain ⟨comparison, hok⟩ := (hreachable.lawful.resolve_ok_iff raw).mpr haccepts
  rw [hok] at hresolve
  cases hresolve

theorem parse_error {error : QueryError} (h : parse source settings = .error error) :
    (∃ fault : Fault, fault.OfSyntax source.toList ∧ error = .syntactic (fault.finding source)) ∨
      ∃ raw, Misranged settings source raw ∧ error = .semantic
        (Fault.finding ⟨.rangeOperator raw.token.value, raw.token.span⟩ source) := by
  unfold parse at h
  split at h
  next tree htree => exact .inr (normalize_error htree h)
  next error' htree =>
    cases h
    have hplaced := treeFault_placed settings source
    unfold parseTree at htree
    cases hfault : treeFault settings source with
    | ok tree =>
        rw [hfault] at htree
        cases htree
    | error fault =>
        rw [hfault] at htree hplaced
        cases htree
        refine .inl ⟨fault, hplaced, ?_⟩
        rw [Fault.toError_eq, hplaced.syntactic]
        rfl

end Filter

end RequestQuery
