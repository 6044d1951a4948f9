import RequestQuery.Filter.Normal
import RequestQuery.Proofs.Filter.Soundness

/-!
# One derivation for every text

Two derivations of one text are the same. What follows an operand decides where it ends, so texts can
be compared from left to right, one production after another. A filter is therefore accepted exactly
if it has a derivation, and the derivation that it has is the one the parser found.
-/

namespace RequestQuery

namespace Grammar

private theorem more_eq_nil {more : List Spelling} {rest rest' : List Char} (hrest : Ends rest)
    (h : rest = (more.flatMap fun s => ',' :: s.chars) ++ rest') : more = [] := by
  subst h
  cases more with
  | nil => rfl
  | cons s more => exact absurd (hrest ',' rfl) (by decide)

private theorem more_unique {more more' : List Spelling} (hmore : ∀ s ∈ more, s.WellFormed)
    (hmore' : ∀ s ∈ more', s.WellFormed) {rest rest' : List Char} (hrest : Ends rest)
    (hrest' : Ends rest')
    (h : (more.flatMap fun s => ',' :: s.chars) ++ rest =
      (more'.flatMap fun s => ',' :: s.chars) ++ rest') :
    more = more' ∧ rest = rest' := by
  induction more generalizing more' with
  | nil =>
      obtain rfl := more_eq_nil hrest h
      exact ⟨rfl, h⟩
  | cons s more ih =>
      cases more' with
      | nil =>
          cases more_eq_nil hrest' h.symm
      | cons s' more' =>
          simp only [List.flatMap_cons, List.cons_append, List.append_assoc, List.cons.injEq,
            true_and] at h
          rw [List.forall_mem_cons] at hmore hmore'
          obtain ⟨rfl, htail⟩ := Spelling.unique hmore.1 hmore'.1 (closesLiteral_more more hrest)
            (closesLiteral_more more' hrest') h
          obtain ⟨rfl, rfl⟩ := ih hmore.2 hmore'.2 htail
          exact ⟨rfl, rfl⟩

private def ValueSpelling.first : ValueSpelling → Spelling
  | .single literal => literal
  | .range first _ => first
  | .set first _ _ => first

/-- What stands behind the first literal of a value. Its first character tells the three forms
apart. -/
private def ValueSpelling.tail : ValueSpelling → List Char
  | .single _ => []
  | .range _ last => '.' :: '.' :: last.chars
  | .set _ second more => (second :: more).flatMap fun s => ',' :: s.chars

private theorem ValueSpelling.chars_eq (v : ValueSpelling) : v.chars = v.first.chars ++ v.tail := by
  cases v with
  | single literal => exact (List.append_nil _).symm
  | range first last => rfl
  | set first second more => rfl

private theorem ValueSpelling.first_wellFormed {v : ValueSpelling} (h : v.WellFormed) :
    v.first.WellFormed := by
  cases v <;> exact h _ List.mem_cons_self

private theorem ValueSpelling.closesLiteral_tail (v : ValueSpelling) {rest : List Char}
    (hrest : Ends rest) : ClosesLiteral (v.tail ++ rest) := by
  cases v with
  | single literal => exact hrest.closesLiteral
  | range first last => exact closesLiteral_points _
  | set first second more => exact closesLiteral_more (second :: more) hrest

theorem ValueSpelling.unique {v v' : ValueSpelling} (hv : v.WellFormed) (hv' : v'.WellFormed)
    {rest rest' : List Char} (hrest : Ends rest) (hrest' : Ends rest')
    (h : v.chars ++ rest = v'.chars ++ rest') : v = v' ∧ rest = rest' := by
  rw [v.chars_eq, v'.chars_eq, List.append_assoc, List.append_assoc] at h
  obtain ⟨hfirst, htail⟩ := Spelling.unique (first_wellFormed hv) (first_wellFormed hv')
    (v.closesLiteral_tail hrest) (v'.closesLiteral_tail hrest') h
  have hcomma : ∀ {rest : List Char}, Ends rest → ∀ tail, rest ≠ ',' :: tail := by
    rintro rest hrest tail rfl
    exact absurd (hrest ',' rfl) (by decide)
  have hpoint : ∀ {rest : List Char}, Ends rest → ∀ tail, rest ≠ '.' :: tail := by
    rintro rest hrest tail rfl
    exact absurd (hrest '.' rfl) (by decide)
  cases v with
  | single literal =>
      cases v' with
      | single literal' => exact ⟨congrArg _ hfirst, htail⟩
      | range first' last' => exact absurd htail (hpoint hrest _)
      | set first' second' more' => exact absurd htail (hcomma hrest _)
  | range first last =>
      cases v' with
      | single literal' => exact absurd htail.symm (hpoint hrest' _)
      | range first' last' =>
          simp only [tail, List.cons_append, List.cons.injEq, true_and] at htail
          obtain ⟨rfl, rfl⟩ := Spelling.unique (hv last (by simp [literals]))
            (hv' last' (by simp [literals])) hrest.closesLiteral hrest'.closesLiteral htail
          exact ⟨by rw [show first = first' from hfirst], rfl⟩
      | set first' second' more' => exact absurd (List.cons.inj htail).1 (by decide)
  | set first second more =>
      cases v' with
      | single literal' => exact absurd htail.symm (hcomma hrest' _)
      | range first' last' => exact absurd (List.cons.inj htail).1 (by decide)
      | set first' second' more' =>
          obtain ⟨hmore, rfl⟩ := more_unique (fun s hs => hv s (List.mem_cons_of_mem _ hs))
            (fun s hs => hv' s (List.mem_cons_of_mem _ hs)) hrest hrest' htail
          obtain ⟨rfl, rfl⟩ := List.cons.inj hmore
          exact ⟨by rw [show first = first' from hfirst], rfl⟩

section Expressions

variable {operators : OperatorTable}

private theorem EndingSpelling.unique {e e' : EndingSpelling} (he : e.WellFormed operators)
    (he' : e'.WellFormed operators) {rest rest' : List Char} (hrest : Ends rest)
    (hrest' : Ends rest') (h : e.chars ++ rest = e'.chars ++ rest') : e = e' ∧ rest = rest' := by
  obtain ⟨token, value⟩ := e
  obtain ⟨token', value'⟩ := e'
  simp only [EndingSpelling.chars, List.append_assoc] at h
  obtain ⟨rfl, hvalue⟩ := run_unique he.1.2 he'.1.2 (head_value_not_operator he.2.2 rest)
    (head_value_not_operator he'.2.2 rest') h
  obtain ⟨rfl, rfl⟩ := ValueSpelling.unique he.2.2 he'.2.2 hrest hrest' hvalue
  exact ⟨rfl, rfl⟩

private theorem not_ends_ending {e : EndingSpelling} (he : e.WellFormed operators)
    (rest : List Char) : ¬Ends (e.chars ++ rest) := by
  intro hends
  rw [EndingSpelling.chars, List.append_assoc] at hends
  obtain ⟨c, token, htoken⟩ := List.exists_cons_of_ne_nil he.1.1
  have hhead : c ∈ (e.token ++ (e.value.chars ++ rest)).head? := by rw [htoken]; rfl
  have hnot := hends.head_of_all (p := isOperatorChar) (by decide) c hhead
  rw [head_isRun he.1 c hhead] at hnot
  cases hnot

private theorem ending_unique {e e' : Option EndingSpelling} (he : ∀ a ∈ e, a.WellFormed operators)
    (he' : ∀ a ∈ e', a.WellFormed operators) {rest rest' : List Char} (hrest : Ends rest)
    (hrest' : Ends rest')
    (h : e.elim [] EndingSpelling.chars ++ rest = e'.elim [] EndingSpelling.chars ++ rest') :
    e = e' ∧ rest = rest' := by
  cases e with
  | none =>
      cases e' with
      | none => exact ⟨rfl, h⟩
      | some a' => exact absurd (h ▸ hrest) (not_ends_ending (he' a' rfl) rest')
  | some a =>
      cases e' with
      | none => exact absurd (h.symm ▸ hrest') (not_ends_ending (he a rfl) rest)
      | some a' =>
          obtain ⟨rfl, rfl⟩ := EndingSpelling.unique (he a rfl) (he' a' rfl) hrest hrest' h
          exact ⟨rfl, rfl⟩

/-- Brackets around an expression: the separators, the expression and what follows are determined if
the expression is. -/
private theorem brackets_unique {closer : Char} (hcloser : Nesting.isCloser closer = true)
    {before before' after after' rest rest' : List Char} {inner inner' : Chain .any}
    (hbefore : before.all isSeparator = true) (hbefore' : before'.all isSeparator = true)
    (hafter : after.all isSeparator = true) (hafter' : after'.all isSeparator = true)
    (hinner : inner.WellFormed operators) (hinner' : inner'.WellFormed operators)
    (hunique : ∀ rest rest', Level.any.Follows rest → Level.any.Follows rest' →
      inner.chars ++ rest = inner'.chars ++ rest' → inner = inner' ∧ rest = rest')
    (h : before ++ (inner.chars ++ (after ++ closer :: rest)) =
      before' ++ (inner'.chars ++ (after' ++ closer :: rest'))) :
    before = before' ∧ inner = inner' ∧ after = after' ∧ rest = rest' := by
  have hend : ∀ rest : List Char, ∀ c ∈ (closer :: rest).head?, Nesting.isCloser c = true := by
    intro rest c hc
    cases hc
    exact hcloser
  have hseparator : ∀ rest : List Char, ∀ c ∈ (closer :: rest).head?, isSeparator c = false := by
    intro rest c hc
    cases hc
    simp only [Nesting.isCloser, Bool.or_eq_true, beq_iff_eq] at hcloser
    rcases hcloser with rfl | rfl <;> decide
  obtain ⟨rfl, hexpression⟩ := run_unique hbefore hbefore' (Chain.head_not_separator hinner _)
    (Chain.head_not_separator hinner' _) h
  obtain ⟨rfl, htail⟩ := hunique _ _ (follows_end hafter (hend _)) (follows_end hafter' (hend _))
    hexpression
  obtain ⟨rfl, hrest⟩ := run_unique hafter hafter' (hseparator _) (hseparator _) htail
  exact ⟨rfl, rfl, rfl, (List.cons.inj hrest).2⟩

private theorem steps_eq_done {steps : Steps} {rest rest' : List Char} (hrest : ClosesPath rest)
    (h : rest = steps.chars ++ rest') : steps = .done := by
  subst h
  cases steps with
  | done => rfl
  | segment name more => exact absurd (hrest '.' rfl) (by decide)
  | group before inner after more => exact absurd (hrest '[' rfl) (by decide)

private theorem head_ne_parenthesis {head rest text : List Char} (hhead : IsRun isNameChar head) :
    '(' :: text ≠ head ++ rest := by
  intro h
  have hhead' : '(' ∈ (head ++ rest).head? := by rw [← h]; rfl
  exact absurd (head_isRun hhead '(' hhead') (by decide)

mutual
/-- What follows a chain decides where it ends, so the text decides the chain. -/
theorem Chain.unique {level : Level} : ∀ (chain chain' : Chain level),
    chain.WellFormed operators → chain'.WellFormed operators →
    ∀ rest rest', level.Follows rest → level.Follows rest' →
      chain.chars ++ rest = chain'.chars ++ rest' → chain = chain' ∧ rest = rest'
  | .last part, .last part', hwell, hwell', rest, rest', hrest, hrest', h => by
      obtain ⟨rfl, rfl⟩ := part.unique part' hwell hwell' rest rest' hrest.1 hrest'.1 h
      exact ⟨rfl, rfl⟩
  | .last part, .cons part' before' after' more', hwell, hwell', rest, rest', hrest, _, h => by
      simp only [Chain.chars, List.append_assoc] at h
      obtain ⟨-, hjoint⟩ := part.unique part' hwell hwell'.1 rest _ hrest.1
        (partFollows_letters hwell'.2.1 level _) h
      exact absurd ⟨before', after', _, hjoint, hwell'.2.1, hwell'.2.2.1⟩ hrest.2
  | .cons part before after more, .last part', hwell, hwell', rest, rest', _, hrest', h => by
      simp only [Chain.chars, List.append_assoc] at h
      obtain ⟨-, hjoint⟩ := part.unique part' hwell.1 hwell' _ rest'
        (partFollows_letters hwell.2.1 level _) hrest'.1 h
      exact absurd ⟨before, after, _, hjoint.symm, hwell.2.1, hwell.2.2.1⟩ hrest'.2
  | .cons part before after more, .cons part' before' after' more', hwell, hwell', rest, rest',
      hrest, hrest', h => by
      obtain ⟨hpart, hbefore, hafter, hmore⟩ := hwell
      obtain ⟨hpart', hbefore', hafter', hmore'⟩ := hwell'
      simp only [Chain.chars, List.append_assoc] at h
      obtain ⟨rfl, hjoint⟩ := part.unique part' hpart hpart' _ _
        (partFollows_letters hbefore level _) (partFollows_letters hbefore' level _) h
      obtain ⟨rfl, hletters⟩ := run_unique hbefore.2 hbefore'.2 (letters_head level _)
        (letters_head level _) hjoint
      obtain ⟨rfl, htail⟩ := run_unique hafter.2 hafter'.2 (Chain.head_not_separator hmore rest)
        (Chain.head_not_separator hmore' rest') (List.append_cancel_left hletters)
      obtain ⟨rfl, rfl⟩ := more.unique more' hmore hmore' rest rest' hrest hrest' htail
      exact ⟨rfl, rfl⟩

theorem Part.unique {level : Level} : ∀ (part part' : Part level),
    part.WellFormed operators → part'.WellFormed operators →
    ∀ rest rest', level.PartFollows rest → level.PartFollows rest' →
      part.chars ++ rest = part'.chars ++ rest' → part = part' ∧ rest = rest'
  | .conjunction chain, .conjunction chain', hwell, hwell', rest, rest', hrest, hrest', h => by
      obtain ⟨rfl, rfl⟩ := chain.unique chain' hwell hwell' rest rest' hrest hrest' h
      exact ⟨rfl, rfl⟩
  | .parentheses before inner after, .parentheses before' inner' after', hwell, hwell', rest, rest',
      _, _, h => by
      obtain ⟨hbefore, hinner, hafter⟩ := hwell
      obtain ⟨hbefore', hinner', hafter'⟩ := hwell'
      simp only [Part.chars, List.cons_append, List.append_assoc, List.nil_append, List.cons.injEq,
        true_and] at h
      obtain ⟨rfl, rfl, rfl, rfl⟩ := brackets_unique rfl hbefore hbefore' hafter hafter' hinner
        hinner' (inner.unique inner' hinner hinner') h
      exact ⟨rfl, rfl⟩
  | .parentheses before inner after, .path head' steps' ending', _, hwell', rest, rest', _, _, h => by
      rw [Part.chars, Part.chars, List.append_assoc] at h
      exact absurd h (head_ne_parenthesis hwell'.1)
  | .path head steps ending, .parentheses before' inner' after', hwell, _, rest, rest', _, _, h => by
      rw [Part.chars, Part.chars, List.append_assoc] at h
      exact absurd h.symm (head_ne_parenthesis hwell.1)
  | .path head steps ending, .path head' steps' ending', hwell, hwell', rest, rest', hrest, hrest',
      h => by
      obtain ⟨hhead, hsteps, hending⟩ := hwell
      obtain ⟨hhead', hsteps', hending'⟩ := hwell'
      have hcloses := closesPath_ending hending hrest
      have hcloses' := closesPath_ending hending' hrest'
      simp only [Part.chars, List.append_assoc] at h
      obtain ⟨rfl, hbehind⟩ := run_unique hhead.2 hhead'.2 (steps_head steps hcloses)
        (steps_head steps' hcloses') h
      obtain ⟨rfl, htail⟩ := steps.unique steps' hsteps hsteps' _ _ hcloses hcloses' hbehind
      obtain ⟨rfl, rfl⟩ := ending_unique hending hending' hrest hrest' htail
      exact ⟨rfl, rfl⟩

theorem Steps.unique : ∀ (steps steps' : Steps),
    steps.WellFormed operators → steps'.WellFormed operators →
    ∀ rest rest', ClosesPath rest → ClosesPath rest' →
      steps.chars ++ rest = steps'.chars ++ rest' → steps = steps' ∧ rest = rest'
  | .done, steps', _, _, rest, rest', hrest, _, h => by
      obtain rfl := steps_eq_done hrest h
      exact ⟨rfl, h⟩
  | steps, .done, _, _, rest, rest', _, hrest', h => by
      obtain rfl := steps_eq_done hrest' h.symm
      exact ⟨rfl, h⟩
  | .segment name more, .segment name' more', hwell, hwell', rest, rest', hrest, hrest', h => by
      simp only [Steps.chars, List.cons_append, List.append_assoc, List.cons.injEq, true_and] at h
      obtain ⟨rfl, htail⟩ := run_unique hwell.1.2 hwell'.1.2 (steps_head more hrest)
        (steps_head more' hrest') h
      obtain ⟨rfl, rfl⟩ := more.unique more' hwell.2 hwell'.2 rest rest' hrest hrest' htail
      exact ⟨rfl, rfl⟩
  | .segment _ _, .group _ _ _ _, _, _, _, _, _, _, h => absurd (List.cons.inj h).1 (by decide)
  | .group _ _ _ _, .segment _ _, _, _, _, _, _, _, h => absurd (List.cons.inj h).1 (by decide)
  | .group before inner after more, .group before' inner' after' more', hwell, hwell', rest, rest',
      hrest, hrest', h => by
      obtain ⟨hbefore, hinner, hafter, hmore⟩ := hwell
      obtain ⟨hbefore', hinner', hafter', hmore'⟩ := hwell'
      simp only [Steps.chars, List.cons_append, List.append_assoc, List.cons.injEq, true_and] at h
      obtain ⟨rfl, rfl, rfl, htail⟩ := brackets_unique rfl hbefore hbefore' hafter hafter' hinner
        hinner' (inner.unique inner' hinner hinner') h
      obtain ⟨rfl, rfl⟩ := more.unique more' hmore hmore' rest rest' hrest hrest' htail
      exact ⟨rfl, rfl⟩
end

theorem Derivation.unique {d d' : Derivation} (h : d.WellFormed operators)
    (h' : d'.WellFormed operators) (hchars : d.chars = d'.chars) : d = d' := by
  obtain ⟨before, expression, after⟩ := d
  obtain ⟨before', expression', after'⟩ := d'
  obtain ⟨hbefore, hexpression, hafter⟩ := h
  obtain ⟨hbefore', hexpression', hafter'⟩ := h'
  have hend : ∀ {after : List Char}, after.all isSeparator = true → Level.any.Follows after := by
    intro after hafter
    rw [← List.append_nil after]
    exact follows_end hafter (by simp)
  obtain ⟨rfl, htail⟩ := run_unique hbefore hbefore' (Chain.head_not_separator hexpression _)
    (Chain.head_not_separator hexpression' _) hchars
  obtain ⟨rfl, rfl⟩ := expression.unique expression' hexpression hexpression' _ _ (hend hafter)
    (hend hafter') htail
  rfl

end Expressions

/-- A derivation of a text in the grammar of an operator table. -/
structure Derivation.Derives (operators : OperatorTable) (source : String) (d : Derivation) :
    Prop where
  well : d.WellFormed operators
  chars : d.chars = source.toList

private theorem isNameChar_bounds {c : Char} (h : isNameChar c = true) :
    48 ≤ c.toNat ∧ c.toNat ≤ 122 := by
  have hclass : (((c.isUpper || c.isLower) || c.isDigit) || c == '_') = true := h
  simp only [Bool.or_eq_true, beq_iff_eq] at hclass
  rcases hclass with ((hupper | hlower) | hdigit) | rfl
  · have hbounds : 'A'.val ≤ c.val ∧ c.val ≤ 'Z'.val := of_decide_eq_true hupper
    rw [UInt32.le_iff_toNat_le, UInt32.le_iff_toNat_le] at hbounds
    simp only [Char.toNat_val, Char.reduceToNat] at hbounds
    omega
  · have hbounds : (decide ('a'.val ≤ c.val) && decide (c.val ≤ 'z'.val)) = true := hlower
    rw [Bool.and_eq_true, decide_eq_true_eq, decide_eq_true_eq, UInt32.le_iff_toNat_le,
      UInt32.le_iff_toNat_le] at hbounds
    simp only [Char.toNat_val, Char.reduceToNat] at hbounds
    omega
  · have hbounds := Char.isDigit_iff_toNat.mp hdigit
    simp only [Char.reduceToNat] at hbounds
    omega
  · decide

private theorem isBlank_of_isStartChar {c : Char} (h : isStartChar c = true) :
    isBlank c = false := by
  have hbounds : 40 ≤ c.toNat ∧ c.toNat ≤ 122 := by
    simp only [isStartChar, Bool.or_eq_true, beq_iff_eq] at h
    rcases h with hname | rfl
    · have hbounds := isNameChar_bounds hname
      omega
    · decide
  by_contra hblank
  simp only [isBlank, blankRanges, List.any_cons, List.any_nil, Bool.not_eq_false, Bool.or_eq_true,
    Bool.and_eq_true, decide_eq_true_eq, Bool.or_false] at hblank
  omega

theorem not_all_isBlank {operators : OperatorTable} {source : String} {d : Derivation}
    (h : d.Derives operators source) : source.toList.all isBlank = false := by
  obtain ⟨c, cs, hchars, hc⟩ := d.expression.head h.well.2.1
  have hmem : c ∈ source.toList := by
    rw [← h.chars, Derivation.chars, hchars]
    simp
  rw [List.all_eq_false]
  exact ⟨c, hmem, by simp [isBlank_of_isStartChar hc]⟩

private theorem parse_eq_ok_iff {operators : OperatorTable} {source : String} {t : Term} :
    Term.parse operators source = .ok t ↔
      ∃ d : Derivation, d.Derives operators source ∧ d.Representable ∧ d.term = t := by
  constructor
  · intro h
    obtain ⟨d, hwell, hnumber, hchars, hterm⟩ := exists_derivation h
    exact ⟨d, ⟨hwell, hchars⟩, hnumber, hterm⟩
  · rintro ⟨d, hderives, hnumber, rfl⟩
    exact Derivation.parse_eq_ok hderives.well hnumber hderives.chars

end Grammar

namespace Filter

open Grammar

theorem parseTree_eq_ok_iff {settings : FilterSettings} {source : String}
    {tree : Formula RawComparison} :
    parseTree source settings = .ok tree ↔
      Nesting.check source settings.maxDepth = .ok () ∧
      ∃ d : Derivation, d.Derives settings.operators source ∧ d.Representable ∧
        d.term.expand = .ok tree := by
  rw [parseTree, report_eq_ok, treeFault]
  constructor
  · intro h
    split at h
    next => cases h
    next =>
      split at h
      next => cases h
      next hnesting =>
        split at h
        next => cases h
        next t hparse =>
          obtain ⟨d, hderives, hnumber, rfl⟩ := parse_eq_ok_iff.mp hparse
          exact ⟨hnesting, d, hderives, hnumber, h⟩
  · rintro ⟨hnesting, d, hderives, hnumber, hexpand⟩
    have hparse := parse_eq_ok_iff.mpr ⟨d, hderives, hnumber, rfl⟩
    simp only [not_all_isBlank hderives, hnesting, hparse, hexpand, Bool.false_eq_true, if_false]

/-- A text is accepted exactly if its brackets do not nest too deep, it has a derivation with
representable numbers, and the brackets of the term of the derivation expand. There is no other
derivation, with any numbers, and the parser reads every text that has one as its term. -/
theorem parseTree_iff_unique_derivation (settings : FilterSettings) (source : String) :
    (∀ tree, parseTree source settings = .ok tree ↔
      Nesting.check source settings.maxDepth = .ok () ∧
      ∃ d : Derivation, d.Derives settings.operators source ∧ d.Representable ∧
        d.term.expand = .ok tree) ∧
    (∀ d d' : Derivation, d.Derives settings.operators source →
      d'.Derives settings.operators source → d = d') ∧
    ∀ t, Term.parse settings.operators source = .ok t ↔
      ∃ d : Derivation, d.Derives settings.operators source ∧ d.Representable ∧ d.term = t := by
  refine ⟨fun tree => parseTree_eq_ok_iff, fun d d' h h' => ?_, fun t => parse_eq_ok_iff⟩
  exact Derivation.unique h.well h'.well (h.chars.trans h'.chars.symm)

/-- The derivation of `a[b OR c]=1..2`. -/
def groupDerivation : Derivation where
  before := []
  expression := .last (.conjunction (.last (.path ['a']
    (.group []
      (.cons (.conjunction (.last (.path ['b'] .done none))) [' '] [' ']
        (.last (.conjunction (.last (.path ['c'] .done none))))) [] .done)
    (some ⟨['='], .range (.number ⟨false, ['1'], none⟩) (.number ⟨false, ['2'], none⟩)⟩))))
  after := []

theorem parseTree_iff_unique_derivation_group :
    groupDerivation.Derives OperatorTable.initial "a[b OR c]=1..2" ∧
    (∀ d : Derivation, d.Derives OperatorTable.initial "a[b OR c]=1..2" → d = groupDerivation) ∧
    parseTree "a[b OR c]=1..2" .initial = .ok (.any [
      .leaf ⟨["a", "b"], ⟨"=", ⟨9, 10⟩⟩, .range (.integer 1) (.integer 2), ⟨2, 3⟩⟩,
      .leaf ⟨["a", "c"], ⟨"=", ⟨9, 10⟩⟩, .range (.integer 1) (.integer 2), ⟨7, 8⟩⟩]) := by
  have hderives : groupDerivation.Derives OperatorTable.initial "a[b OR c]=1..2" :=
    ⟨by decide, by decide⟩
  have hone : Numeral.literal ⟨false, ['1'], none⟩ = .ok (.integer 1) := by decide
  have htwo : Numeral.literal ⟨false, ['2'], none⟩ = .ok (.integer 2) := by decide
  have hterm : groupDerivation.term = .path ⟨"a", ⟨0, 1⟩⟩
      [.group (.any [.path ⟨"b", ⟨2, 3⟩⟩ [] none ⟨2, 3⟩, .path ⟨"c", ⟨7, 8⟩⟩ [] none ⟨7, 8⟩])]
      (some (⟨"=", ⟨9, 10⟩⟩, .range (.integer 1) (.integer 2))) ⟨0, 14⟩ := by
    simp only [groupDerivation, Derivation.term, Chain.term, Chain.terms, Part.term, Steps.steps,
      EndingSpelling.ending, ValueSpelling.value, Spelling.literal, hone, htwo, Option.map_some]
    rfl
  obtain ⟨haccepts, hunique, -⟩ := parseTree_iff_unique_derivation .initial "a[b OR c]=1..2"
  refine ⟨hderives, fun d hd => hunique d groupDerivation hd hderives, ?_⟩
  exact (haccepts _).mpr ⟨by decide, groupDerivation, hderives, by decide, by rw [hterm]; rfl⟩

end Filter

end RequestQuery
