import RequestQuery.Proofs.Filter.NumberFaults
import RequestQuery.Proofs.Filter.Places
import RequestQuery.Proofs.Filter.Unambiguity

/-!
# Needless parentheses

Parentheses around parts that the connective around them joins anyway do not change what a filter text
stands for, so neither does joining parts in another order of parentheses. Reading such texts comes to
the same filter. If it fails it fails for the same reason, told in the same words; only the place is
another one.
-/

namespace RequestQuery

namespace Grammar

def Chain.parts {level : Level} : Chain level → List (Part level)
  | .last part => [part]
  | .cons part _ _ rest => part :: rest.parts

/-- A chain in parentheses, as one part for its own connective. -/
def Chain.enclosed (before after : List Char) : {level : Level} → Chain level → Part level
  | .any, chain => .conjunction (.last (.parentheses before chain after))
  | .all, chain => .parentheses before (.last (.conjunction chain)) after

theorem Chain.chars_enclosed {level : Level} (before after : List Char) (chain : Chain level) :
    (chain.enclosed before after).chars = '(' :: (before ++ (chain.chars ++ (after ++ [')']))) := by
  cases level <;> simp [Chain.enclosed, Part.chars, Chain.chars]

mutual
/-- One pair of parentheses is put around some of the parts that a connective joins, one after
another, or somewhere inside one of them. Separators may change. -/
inductive EnclosesParts : {level : Level} → List (Part level) → List (Part level) → Prop where
  | around {level : Level} (front : List (Part level)) (run : Chain level) (back : List (Part level))
      (before after : List Char) :
      EnclosesParts (front ++ (run.parts ++ back)) (front ++ (run.enclosed before after :: back))
  | inside {level : Level} {part part' : Part level} (front : List (Part level))
      (h : EnclosesPart part part') (back : List (Part level)) :
      EnclosesParts (front ++ part :: back) (front ++ part' :: back)

inductive EnclosesPart : {level : Level} → Part level → Part level → Prop where
  | conjunction {chain chain' : Chain .all} (h : EnclosesParts chain.parts chain'.parts) :
      EnclosesPart (.conjunction chain) (.conjunction chain')
  | parentheses {inner inner' : Chain .any} (before before' : List Char)
      (h : EnclosesParts inner.parts inner'.parts) (after after' : List Char) :
      EnclosesPart (.parentheses before inner after) (.parentheses before' inner' after')
  | path {steps steps' : Steps} (head : List Char) (h : EnclosesSteps steps steps')
      (ending : Option EndingSpelling) :
      EnclosesPart (.path head steps ending) (.path head steps' ending)

inductive EnclosesSteps : Steps → Steps → Prop where
  | segment {rest rest' : Steps} (name : List Char) (h : EnclosesSteps rest rest') :
      EnclosesSteps (.segment name rest) (.segment name rest')
  | group {inner inner' : Chain .any} (before before' : List Char)
      (h : EnclosesParts inner.parts inner'.parts) (after after' : List Char) (rest : Steps) :
      EnclosesSteps (.group before inner after rest) (.group before' inner' after' rest)
  | later {rest rest' : Steps} (before : List Char) (inner : Chain .any) (after : List Char)
      (h : EnclosesSteps rest rest') :
      EnclosesSteps (.group before inner after rest) (.group before inner after rest')
end

theorem EnclosesParts.last {level : Level} {part part' : Part level} (h : EnclosesPart part part') :
    EnclosesParts (Chain.last part).parts (Chain.last part').parts :=
  .inside [] h []

/-- Texts that differ in needless parentheses only: they are added and taken away pair by pair. -/
def Derivation.Regroups (d d' : Derivation) : Prop :=
  Relation.EqvGen EnclosesParts d.expression.parts d'.expression.parts

theorem Chain.literals_parts {level : Level} (chain : Chain level) :
    chain.parts.flatMap Part.literals = chain.literals := by
  fun_induction Chain.parts chain with
  | case1 level part => simp [Chain.literals]
  | case2 level part before after rest ih => simp [Chain.literals, ih]

theorem Chain.literals_enclosed {level : Level} (before after : List Char) (chain : Chain level) :
    (chain.enclosed before after).literals = chain.literals := by
  cases level <;> rfl

mutual
theorem EnclosesParts.literals {level : Level} {parts parts' : List (Part level)} :
    EnclosesParts parts parts' → parts.flatMap Part.literals = parts'.flatMap Part.literals
  | .around front run back before after => by
      simp [Chain.literals_parts, Chain.literals_enclosed]
  | .inside front h back => by simp [h.literals]

theorem EnclosesPart.literals {level : Level} {part part' : Part level} : EnclosesPart part part' →
    part.literals = part'.literals
  | .conjunction h => by
      rw [Part.literals, Part.literals, ← Chain.literals_parts, h.literals, Chain.literals_parts]
  | .parentheses _ _ h _ _ => by
      rw [Part.literals, Part.literals, ← Chain.literals_parts, h.literals, Chain.literals_parts]
  | .path _ h _ => by rw [Part.literals, Part.literals, h.literals]

theorem EnclosesSteps.literals {steps steps' : Steps} : EnclosesSteps steps steps' →
    steps.literals = steps'.literals
  | .segment _ h => by rw [Steps.literals, Steps.literals, h.literals]
  | .group _ _ h _ _ _ => by
      rw [Steps.literals, Steps.literals, ← Chain.literals_parts, h.literals, Chain.literals_parts]
  | .later _ _ _ h => by rw [Steps.literals, Steps.literals, h.literals]
end

section Terms

variable {level : Level}

/-- The terms of parts, each as if its text stood alone. -/
def termsOf (parts : List (Part level)) : List Term := parts.map fun part => part.term 0

theorem termsOf_append (front rest : List (Part level)) :
    termsOf (front ++ rest) = termsOf front ++ termsOf rest := List.map_append

mutual
/-- What a text stands for does not hang on where it starts, faults included. -/
theorem Chain.alike_termsOf {level : Level} : ∀ (chain : Chain level) (offset : Nat),
    level.Alike (chain.terms offset) (termsOf chain.parts)
  | .last part, offset => .single (part.alike_term offset 0)
  | .cons part _ _ rest, offset =>
      .append (.single (part.alike_term offset 0)) (rest.alike_termsOf _)

theorem Part.alike_term {level : Level} : ∀ (part : Part level) (offset offset' : Nat),
    (part.term offset).Alike (part.term offset')
  | .conjunction chain, offset, offset' =>
      ((chain.alike_termsOf offset).trans (chain.alike_termsOf offset').symm).collapse
  | .parentheses _ inner _, offset, offset' =>
      ((inner.alike_termsOf _).trans (inner.alike_termsOf _).symm).collapse
  | .path head steps ending, offset, offset' => by
      refine .path rfl (steps.alike_steps _ _) ?_ _ _
      cases ending <;> rfl

theorem Steps.alike_steps : ∀ (steps : Steps) (offset offset' : Nat),
    List.Forall₂ Step.Alike (steps.steps offset) (steps.steps offset')
  | .done, _, _ => .nil
  | .segment _ rest, _, _ => .cons (.segment rfl) (rest.alike_steps _ _)
  | .group _ inner _ rest, _, _ =>
      .cons (.group ((inner.alike_termsOf _).trans (inner.alike_termsOf _).symm).collapse)
        (rest.alike_steps _ _)
end

theorem Chain.alike_of_parts {chain chain' : Chain level}
    (h : level.Alike (termsOf chain.parts) (termsOf chain'.parts)) (offset offset' : Nat) :
    (chain.term offset).Alike (chain'.term offset') :=
  (((chain.alike_termsOf offset).trans h).trans (chain'.alike_termsOf offset').symm).collapse

theorem Chain.alike_enclosed (before after : List Char) (chain : Chain level) :
    level.Alike (termsOf chain.parts) [(chain.enclosed before after).term 0] := by
  have hterm : ∃ offset, (chain.enclosed before after).term 0 = chain.term offset := by
    cases level <;> exact ⟨_, rfl⟩
  obtain ⟨offset, hoffset⟩ := hterm
  rw [hoffset]
  exact (chain.alike_termsOf offset).symm.trans (.enclosed level _)

mutual
theorem EnclosesParts.alike {level : Level} {parts parts' : List (Part level)} :
    EnclosesParts parts parts' → level.Alike (termsOf parts) (termsOf parts')
  | .around front run back before after => by
      rw [termsOf_append, termsOf_append, termsOf_append]
      exact .append (.refl level _) (.append (run.alike_enclosed before after) (.refl level _))
  | .inside front h back => by
      rw [termsOf_append, termsOf_append]
      exact .append (.refl level _) (.append (.single (h.alike 0 0)) (.refl level _))

theorem EnclosesPart.alike {level : Level} {part part' : Part level} : EnclosesPart part part' →
    ∀ offset offset', (part.term offset).Alike (part'.term offset')
  | .conjunction h, _, _ => Chain.alike_of_parts h.alike _ _
  | .parentheses _ _ h _ _, _, _ => Chain.alike_of_parts h.alike _ _
  | .path head h ending, _, _ => by
      refine .path rfl (h.alike _ _) ?_ _ _
      cases ending <;> rfl

theorem EnclosesSteps.alike {steps steps' : Steps} : EnclosesSteps steps steps' →
    ∀ offset offset', List.Forall₂ Step.Alike (steps.steps offset) (steps'.steps offset')
  | .segment _ h, _, _ => .cons (.segment rfl) (h.alike _ _)
  | .group _ _ h _ _ rest, _, _ =>
      .cons (.group (Chain.alike_of_parts h.alike _ _)) (rest.alike_steps _ _)
  | .later _ inner _ h, _, _ =>
      .cons (.group (Chain.alike_of_parts (.refl _ _) _ _)) (h.alike _ _)
end

end Terms

theorem agree_of_eqvGen {level : Level} {parts parts' : List (Part level)}
    (h : Relation.EqvGen EnclosesParts parts parts') :
    parts.flatMap Part.literals = parts'.flatMap Part.literals ∧
      level.Alike (termsOf parts) (termsOf parts') := by
  induction h with
  | rel _ _ h => exact ⟨h.literals, h.alike⟩
  | refl parts => exact ⟨rfl, .refl level _⟩
  | symm _ _ _ ih => exact ⟨ih.1.symm, ih.2.symm⟩
  | trans _ _ _ _ _ ih ih' => exact ⟨ih.1.trans ih'.1, ih.2.trans ih'.2⟩

namespace Derivation

variable {d d' : Derivation}

theorem Regroups.literals (h : d.Regroups d') :
    d.expression.literals = d'.expression.literals := by
  rw [← Chain.literals_parts, ← Chain.literals_parts]
  exact (agree_of_eqvGen h).1

theorem Regroups.alike (h : d.Regroups d') : d.term.Alike d'.term :=
  Chain.alike_of_parts (agree_of_eqvGen h).2 _ _

end Derivation

end Grammar

def Finding.unplaced (finding : Finding) : Finding := { finding with expression := "", location := none }

/-- The error without the text it was found in and its place there. -/
def QueryError.unplaced : QueryError → QueryError
  | .syntactic finding => .syntactic finding.unplaced
  | .semantic finding => .semantic finding.unplaced
  | .validation code message => .validation code message
  | .request key source => .request key source.unplaced

theorem Fault.unplaced_toError {fault fault' : Fault} (h : fault.cause = fault'.cause)
    (source source' : String) :
    (fault.toError source).unplaced = (fault'.toError source').unplaced := by
  unfold Fault.toError
  rw [h]
  split <;> rfl

/-- Outcomes that match are reported alike, whatever texts they were found in. -/
theorem Matches.report {α : Type} {r r' : Except Fault α} (h : Matches Eq r r')
    (source source' : String) :
    (report source r).mapError QueryError.unplaced =
      (report source' r').mapError QueryError.unplaced := by
  cases h with
  | ok h =>
      rw [h]
      rfl
  | error h => exact congrArg Except.error (Fault.unplaced_toError h source source')

namespace Grammar.Derivation

/-- The filter a derivation stands for. A number that cannot be kept is a fault before all others. -/
def filter (operators : OperatorTable) (d : Derivation) : Except Fault Filter :=
  match firstFault d.expression.literals with
  | some fault => .error ⟨.number fault, .point 0⟩
  | none => d.term.filter operators

theorem Regroups.filter {d d' : Derivation} (h : d.Regroups d') (operators : OperatorTable) :
    Matches Eq (d.filter operators) (d'.filter operators) := by
  unfold Derivation.filter
  rw [h.literals]
  cases firstFault d'.expression.literals with
  | some fault => exact .error rfl
  | none => exact h.alike.filter operators

end Grammar.Derivation

namespace Filter

open Grammar

variable {settings : FilterSettings}

theorem unplaced_parse {source : String} {d : Derivation}
    (h : d.Derives settings.operators source)
    (hcheck : Nesting.check source settings.maxDepth = .ok ()) :
    (parse source settings).mapError QueryError.unplaced =
      (report source (d.filter settings.operators)).mapError QueryError.unplaced := by
  unfold Derivation.filter
  cases hfault : firstFault d.expression.literals with
  | some fault =>
      obtain ⟨span, hparse⟩ := Derivation.parse_eq_error h.well hfault h.chars
      have htree : treeFault settings source = .error ⟨.number fault, span⟩ := by
        simp only [treeFault, not_all_isBlank h, hcheck, hparse, Bool.false_eq_true, if_false]
      -- The derivation tells all but the span of the number, which is dropped here.
      simp only [parse, parseTree, htree]
      rfl
  | none =>
      rw [firstFault_eq_none, ← Chain.representable_iff] at hfault
      have hparse := Derivation.parse_eq_ok h.well hfault h.chars
      have htree : treeFault settings source = d.term.expand := by
        simp only [treeFault, not_all_isBlank h, hcheck, hparse, Bool.false_eq_true, if_false]
      simp only [parse, parseTree, htree, Term.filter]
      cases d.term.expand <;> rfl

/-- Taking needless groups out of a tree one by one ends in its flat form, which has none, and the tree
normalizes to the same filter or error in that form. Nor do needless parentheses change what a text
within the nesting limit is read as: the same filter comes out, or an error that differs in its text
and place only. -/
theorem grouping_irrelevant (settings : FilterSettings) :
    (∀ (tree : Formula RawComparison) (source : String),
      Relation.ReflTransGen Formula.Ungroups tree tree.flat ∧
      (∀ next, ¬ Formula.Ungroups tree.flat next) ∧
      normalize tree.flat settings source = normalize tree settings source) ∧
    ∀ (source source' : String) (d d' : Derivation), d.Derives settings.operators source →
      d'.Derives settings.operators source' → d.Regroups d' →
      Nesting.check source settings.maxDepth = .ok () →
      Nesting.check source' settings.maxDepth = .ok () →
      (parse source settings).mapError QueryError.unplaced =
        (parse source' settings).mapError QueryError.unplaced := by
  constructor
  · intro tree source
    refine ⟨Formula.ungroups_flat tree, fun next h => h.not_settled (Formula.settled_flat tree), ?_⟩
    rw [normalize, normalize, normalizeFault_congr (Formula.flat_equivalent tree)]
  · intro source source' d d' hd hd' hregroups hcheck hcheck'
    calc (parse source settings).mapError QueryError.unplaced
        = (report source (d.filter settings.operators)).mapError QueryError.unplaced :=
          unplaced_parse hd hcheck
      _ = (report source' (d'.filter settings.operators)).mapError QueryError.unplaced :=
          (hregroups.filter settings.operators).report source source'
      _ = (parse source' settings).mapError QueryError.unplaced := (unplaced_parse hd' hcheck').symm

/-- The derivation of `x[…]` with a conjunction in the brackets. -/
def bracketDerivation (chain : Chain .all) : Derivation where
  before := []
  expression := .last (.conjunction (.last (.path ['x']
    (.group [] (.last (.conjunction chain)) [] .done) none)))
  after := []

def comparisonPart (name digit : Char) : Part .all :=
  .path [name] .done (some ⟨['='], .single (.number ⟨false, [digit], none⟩)⟩)

/-- `x[a=1 AND b=2 AND c=3]` with parentheses around the first two comparisons. -/
def leftGrouped : Derivation :=
  bracketDerivation (.cons
    ((Chain.cons (comparisonPart 'a' '1') [' '] [' '] (.last (comparisonPart 'b' '2'))).enclosed [] [])
    [' '] [' '] (.last (comparisonPart 'c' '3')))

/-- `x[a=1 AND b=2 AND c=3]` with parentheses around the last two comparisons. -/
def rightGrouped : Derivation :=
  bracketDerivation (.cons (comparisonPart 'a' '1') [' '] [' ']
    (.last ((Chain.cons (comparisonPart 'b' '2') [' '] [' ']
      (.last (comparisonPart 'c' '3'))).enclosed [] [])))

theorem bracketDerivation_encloses {chain chain' : Chain .all}
    (h : EnclosesParts chain.parts chain'.parts) :
    EnclosesParts (bracketDerivation chain).expression.parts
      (bracketDerivation chain').expression.parts := by
  have hinner : EnclosesSteps (.group [] (.last (.conjunction chain)) [] .done)
      (.group [] (.last (.conjunction chain')) [] .done) :=
    .group [] [] (.last (.conjunction h)) [] [] .done
  exact .last (.conjunction (.last (.path ['x'] hinner none)))

theorem grouping_irrelevant_reassociated :
    leftGrouped.Derives OperatorTable.initial "x[(a=1 AND b=2) AND c=3]" ∧
    rightGrouped.Derives OperatorTable.initial "x[a=1 AND (b=2 AND c=3)]" ∧
    leftGrouped.Regroups rightGrouped ∧
    (parse "x[(a=1 AND b=2) AND c=3]" .initial).isOk = true ∧
    (parse "x[(a=1 AND b=2) AND c=3]" .initial).mapError QueryError.unplaced =
      (parse "x[a=1 AND (b=2 AND c=3)]" .initial).mapError QueryError.unplaced := by
  let a := comparisonPart 'a' '1'
  let b := comparisonPart 'b' '2'
  let c := comparisonPart 'c' '3'
  have hleft : leftGrouped.Derives OperatorTable.initial "x[(a=1 AND b=2) AND c=3]" :=
    ⟨by decide, by decide⟩
  have hright : rightGrouped.Derives OperatorTable.initial "x[a=1 AND (b=2 AND c=3)]" :=
    ⟨by decide, by decide⟩
  have hregroups : leftGrouped.Regroups rightGrouped := by
    apply Relation.EqvGen.trans _ (bracketDerivation (.cons a [' '] [' '] (.cons b [' '] [' ']
      (.last c)))).expression.parts
    · apply Relation.EqvGen.symm
      exact .rel _ _ (bracketDerivation_encloses
        (.around [] (.cons a [' '] [' '] (.last b)) [c] [] []))
    · exact .rel _ _ (bracketDerivation_encloses
        (.around [a] (.cons b [' '] [' '] (.last c)) [] [] []))
  refine ⟨hleft, hright, hregroups, by decide +kernel, ?_⟩
  exact (grouping_irrelevant .initial).2 _ _ leftGrouped rightGrouped hleft hright hregroups
    (by decide) (by decide)

end Filter

end RequestQuery
