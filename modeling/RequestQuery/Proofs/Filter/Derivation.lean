import RequestQuery.Filter.Term

/-!
# Derivations of filter texts

The grammar of filters without a parser. A derivation is a tree with one constructor for each
production; it holds every character of its text, separators included. `chars` is the text it
derives and `term` is what the text means.

    filter      := separators any separators
    any         := all ( separators+ "OR" separators+ all )*
    all         := part ( separators+ "AND" separators+ part )*
    part        := "(" separators any separators ")" | name step* ending?
    step        := "." name | "[" separators any separators "]"
    ending      := operator value
    value       := literal | literal ".." literal | literal ( "," literal )+
-/

namespace RequestQuery

/-- At least one character, all of one class. -/
def IsRun (p : Char → Bool) (cs : List Char) : Prop := cs ≠ [] ∧ cs.all p = true

instance (p : Char → Bool) (cs : List Char) : Decidable (IsRun p cs) :=
  inferInstanceAs (Decidable (_ ∧ _))

/-- Digits, and if there is a point digits behind it too. -/
def Numeral.WellFormed (n : Numeral) : Prop :=
  IsRun Char.isDigit n.whole ∧ ∀ digits ∈ n.fraction, IsRun Char.isDigit digits

instance (n : Numeral) : Decidable n.WellFormed := inferInstanceAs (Decidable (_ ∧ _))

namespace Grammar

inductive Spelling where
  /-- The characters between the quotes; quotes and backslashes stand behind a backslash. -/
  | quoted (chars : List Char)
  | number (numeral : Numeral)
  | boolean (b : Bool)
  | null

inductive ValueSpelling where
  | single (literal : Spelling)
  | range (first last : Spelling)
  /-- At least two literals. -/
  | set (first second : Spelling) (more : List Spelling)

structure EndingSpelling where
  token : List Char
  value : ValueSpelling

namespace Spelling

def chars : Spelling → List Char
  | .quoted cs => '"' :: cs.flatMap Literal.escapeChar ++ ['"']
  | .number n => n.chars
  | .boolean true => ['t', 'r', 'u', 'e']
  | .boolean false => ['f', 'a', 'l', 's', 'e']
  | .null => ['n', 'u', 'l', 'l']

def WellFormed : Spelling → Prop
  | .number n => n.WellFormed
  | _ => True

/-- Whether a number can be kept as it is written. -/
def Representable : Spelling → Prop
  | .number n => ∃ literal, n.literal = .ok literal
  | _ => True

/-- The literal that is meant. A number that is not representable means nothing. -/
def literal : Spelling → Literal
  | .quoted cs => .text (String.ofList cs)
  | .number n =>
      match n.literal with
      | .ok literal => literal
      | .error _ => .null
  | .boolean b => .boolean b
  | .null => .null

instance : (s : Spelling) → Decidable s.WellFormed
  | .number n => inferInstanceAs (Decidable n.WellFormed)
  | .quoted _ | .boolean _ | .null => .isTrue trivial

instance : (s : Spelling) → Decidable s.Representable
  | .number n =>
      match h : n.literal with
      | .ok literal => .isTrue ⟨literal, h⟩
      | .error _ => .isFalse fun ⟨_, h'⟩ => nomatch h.symm.trans h'
  | .quoted _ | .boolean _ | .null => .isTrue trivial

end Spelling

namespace ValueSpelling

def literals : ValueSpelling → List Spelling
  | .single literal => [literal]
  | .range first last => [first, last]
  | .set first second more => first :: second :: more

def chars : ValueSpelling → List Char
  | .single literal => literal.chars
  | .range first last => first.chars ++ '.' :: '.' :: last.chars
  | .set first second more => first.chars ++ (second :: more).flatMap fun s => ',' :: s.chars

def value : ValueSpelling → Value
  | .single literal => .single literal.literal
  | .range first last => .range first.literal last.literal
  | .set first second more => .set (first.literal :: (second :: more).map Spelling.literal)

def WellFormed (v : ValueSpelling) : Prop := ∀ s ∈ v.literals, s.WellFormed

def Representable (v : ValueSpelling) : Prop := ∀ s ∈ v.literals, s.Representable

instance (v : ValueSpelling) : Decidable v.WellFormed :=
  inferInstanceAs (Decidable (∀ s ∈ v.literals, s.WellFormed))

instance (v : ValueSpelling) : Decidable v.Representable :=
  inferInstanceAs (Decidable (∀ s ∈ v.literals, s.Representable))

end ValueSpelling

namespace EndingSpelling

def chars (e : EndingSpelling) : List Char := e.token ++ e.value.chars

def ending (e : EndingSpelling) (offset : Nat) : Ending :=
  (⟨String.ofList e.token, ⟨offset, offset + byteLength e.token⟩⟩, e.value.value)

/-- The token is a run of operator characters and it is bound. -/
def WellFormed (operators : OperatorTable) (e : EndingSpelling) : Prop :=
  IsRun isOperatorChar e.token ∧ operators.has (String.ofList e.token) = true ∧ e.value.WellFormed

instance (operators : OperatorTable) (e : EndingSpelling) : Decidable (e.WellFormed operators) :=
  inferInstanceAs (Decidable (_ ∧ _ ∧ _))

end EndingSpelling

/-- The two connectives; `any` joins what `all` has joined. -/
inductive Level where
  | any
  | all
  deriving DecidableEq

namespace Level

def letters : Level → List Char
  | .any => ['O', 'R']
  | .all => ['A', 'N', 'D']

def wrap : Level → List Term → Term
  | .any => .any
  | .all => .all

end Level

mutual
/-- Parts joined by the connective of a level. -/
inductive Chain : Level → Type where
  | last {level : Level} (part : Part level) : Chain level
  | cons {level : Level} (part : Part level) (before after : List Char) (rest : Chain level) :
      Chain level

/-- What the connective of a level joins. -/
inductive Part : Level → Type where
  | conjunction (chain : Chain .all) : Part .any
  | parentheses (before : List Char) (inner : Chain .any) (after : List Char) : Part .all
  | path (head : List Char) (steps : Steps) (ending : Option EndingSpelling) : Part .all

/-- What stands between the head of a path and its ending. -/
inductive Steps : Type where
  | done
  | segment (name : List Char) (rest : Steps)
  | group (before : List Char) (inner : Chain .any) (after : List Char) (rest : Steps)
end

mutual
def Chain.chars {level : Level} : Chain level → List Char
  | .last part => part.chars
  | .cons part before after rest => part.chars ++ (before ++ (level.letters ++ (after ++ rest.chars)))

def Part.chars {level : Level} : Part level → List Char
  | .conjunction chain => chain.chars
  | .parentheses before inner after => '(' :: (before ++ (inner.chars ++ (after ++ [')'])))
  | .path head steps ending => head ++ (steps.chars ++ (ending.elim [] EndingSpelling.chars))

def Steps.chars : Steps → List Char
  | .done => []
  | .segment name rest => '.' :: (name ++ rest.chars)
  | .group before inner after rest =>
      '[' :: (before ++ (inner.chars ++ (after ++ ']' :: rest.chars)))
end

mutual
/-- The terms of the parts when the text starts at byte `offset`. -/
def Chain.terms {level : Level} : Chain level → Nat → List Term
  | .last part, offset => [part.term offset]
  | .cons part before after rest, offset =>
      part.term offset ::
        rest.terms (offset + byteLength (part.chars ++ (before ++ (level.letters ++ after))))

def Part.term {level : Level} : Part level → Nat → Term
  | .conjunction chain, offset => Term.collapse .all (chain.terms offset)
  | .parentheses before inner _, offset =>
      Term.collapse .any (inner.terms (offset + byteLength ('(' :: before)))
  | .path head steps ending, offset =>
      .path ⟨String.ofList head, ⟨offset, offset + byteLength head⟩⟩
        (steps.steps (offset + byteLength head))
        (ending.map fun e => e.ending (offset + byteLength (head ++ steps.chars)))
        ⟨offset, offset + byteLength (head ++ (steps.chars ++ ending.elim [] EndingSpelling.chars))⟩

def Steps.steps : Steps → Nat → List Step
  | .done, _ => []
  | .segment name rest, offset =>
      .segment ⟨String.ofList name,
          ⟨offset + byteLength ['.'], offset + byteLength ['.'] + byteLength name⟩⟩ ::
        rest.steps (offset + byteLength ('.' :: name))
  | .group before inner after rest, offset =>
      .group (Term.collapse .any (inner.terms (offset + byteLength ('[' :: before)))) ::
        rest.steps (offset + byteLength ('[' :: (before ++ (inner.chars ++ (after ++ [']'])))))
end

def Chain.term {level : Level} (chain : Chain level) (offset : Nat) : Term :=
  Term.collapse level.wrap (chain.terms offset)

mutual
/-- Names, separators, tokens and literals are what the grammar says. -/
def Chain.WellFormed (operators : OperatorTable) {level : Level} : Chain level → Prop
  | .last part => part.WellFormed operators
  | .cons part before after rest => part.WellFormed operators ∧ IsRun isSeparator before ∧
      IsRun isSeparator after ∧ rest.WellFormed operators

def Part.WellFormed (operators : OperatorTable) {level : Level} : Part level → Prop
  | .conjunction chain => chain.WellFormed operators
  | .parentheses before inner after => before.all isSeparator = true ∧
      inner.WellFormed operators ∧ after.all isSeparator = true
  | .path head steps ending => IsRun isNameChar head ∧ steps.WellFormed operators ∧
      ∀ e ∈ ending, e.WellFormed operators

def Steps.WellFormed (operators : OperatorTable) : Steps → Prop
  | .done => True
  | .segment name rest => IsRun isNameChar name ∧ rest.WellFormed operators
  | .group before inner after rest => before.all isSeparator = true ∧
      inner.WellFormed operators ∧ after.all isSeparator = true ∧ rest.WellFormed operators
end

mutual
/-- Every number can be kept as it is written. -/
def Chain.Representable {level : Level} : Chain level → Prop
  | .last part => part.Representable
  | .cons part _ _ rest => part.Representable ∧ rest.Representable

def Part.Representable {level : Level} : Part level → Prop
  | .conjunction chain => chain.Representable
  | .parentheses _ inner _ => inner.Representable
  | .path _ steps ending => steps.Representable ∧ ∀ e ∈ ending, e.value.Representable

def Steps.Representable : Steps → Prop
  | .done => True
  | .segment _ rest => rest.Representable
  | .group _ inner _ rest => inner.Representable ∧ rest.Representable
end

mutual
private def Chain.decideWellFormed (operators : OperatorTable) {level : Level} :
    (chain : Chain level) → Decidable (chain.WellFormed operators)
  | .last part => part.decideWellFormed operators
  | .cons part _ _ rest =>
      have := part.decideWellFormed operators
      have := rest.decideWellFormed operators
      inferInstanceAs (Decidable (_ ∧ _ ∧ _ ∧ _))

private def Part.decideWellFormed (operators : OperatorTable) {level : Level} :
    (part : Part level) → Decidable (part.WellFormed operators)
  | .conjunction chain => chain.decideWellFormed operators
  | .parentheses _ inner _ =>
      have := inner.decideWellFormed operators
      inferInstanceAs (Decidable (_ ∧ _ ∧ _))
  | .path _ steps _ =>
      have := steps.decideWellFormed operators
      inferInstanceAs (Decidable (_ ∧ _ ∧ _))

private def Steps.decideWellFormed (operators : OperatorTable) :
    (steps : Steps) → Decidable (steps.WellFormed operators)
  | .done => .isTrue trivial
  | .segment _ rest =>
      have := rest.decideWellFormed operators
      inferInstanceAs (Decidable (_ ∧ _))
  | .group _ inner _ rest =>
      have := inner.decideWellFormed operators
      have := rest.decideWellFormed operators
      inferInstanceAs (Decidable (_ ∧ _ ∧ _ ∧ _))
end

instance (operators : OperatorTable) (chain : Chain .any) : Decidable (chain.WellFormed operators) :=
  chain.decideWellFormed operators

mutual
private def Chain.decideRepresentable {level : Level} :
    (chain : Chain level) → Decidable chain.Representable
  | .last part => part.decideRepresentable
  | .cons part _ _ rest =>
      have := part.decideRepresentable
      have := rest.decideRepresentable
      inferInstanceAs (Decidable (_ ∧ _))

private def Part.decideRepresentable {level : Level} :
    (part : Part level) → Decidable part.Representable
  | .conjunction chain => chain.decideRepresentable
  | .parentheses _ inner _ => inner.decideRepresentable
  | .path _ steps _ =>
      have := steps.decideRepresentable
      inferInstanceAs (Decidable (_ ∧ _))

private def Steps.decideRepresentable : (steps : Steps) → Decidable steps.Representable
  | .done => .isTrue trivial
  | .segment _ rest => rest.decideRepresentable
  | .group _ inner _ rest =>
      have := inner.decideRepresentable
      have := rest.decideRepresentable
      inferInstanceAs (Decidable (_ ∧ _))
end

instance (chain : Chain .any) : Decidable chain.Representable := chain.decideRepresentable

mutual
/-- How many brackets stand around one another. -/
def Chain.depth {level : Level} : Chain level → Nat
  | .last part => part.depth
  | .cons part _ _ rest => max part.depth rest.depth

def Part.depth {level : Level} : Part level → Nat
  | .conjunction chain => chain.depth
  | .parentheses _ inner _ => inner.depth + 1
  | .path _ steps _ => steps.depth

def Steps.depth : Steps → Nat
  | .done => 0
  | .segment _ rest => rest.depth
  | .group _ inner _ rest => max (inner.depth + 1) rest.depth
end

/-- A derivation of a whole filter text. -/
structure Derivation where
  before : List Char
  expression : Chain .any
  after : List Char

namespace Derivation

def chars (d : Derivation) : List Char := d.before ++ (d.expression.chars ++ d.after)

def term (d : Derivation) : Term := d.expression.term (byteLength d.before)

def WellFormed (operators : OperatorTable) (d : Derivation) : Prop :=
  d.before.all isSeparator = true ∧ d.expression.WellFormed operators ∧
    d.after.all isSeparator = true

def Representable (d : Derivation) : Prop := d.expression.Representable

instance (operators : OperatorTable) (d : Derivation) : Decidable (d.WellFormed operators) :=
  inferInstanceAs (Decidable (_ ∧ _ ∧ _))

instance (d : Derivation) : Decidable d.Representable :=
  inferInstanceAs (Decidable d.expression.Representable)

end Derivation

end Grammar

end RequestQuery
