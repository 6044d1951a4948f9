import RequestQuery.Filter.Formula
import RequestQuery.Filter.Term

/-!
# Expanding bracket short-hands

`type[id=1 OR name="x"]` stands for `type.id=1 OR type.name="x"`, and `a[b OR c]=1` stands for
`a.b=1 OR a.c=1`. A path is walked from left to right over a formula of leaves: a segment goes behind
every leaf, a group takes the place of every leaf, and the ending closes every leaf.
-/

namespace RequestQuery

/-- A comparison as written, its token not yet looked up. -/
structure RawComparison where
  path : List String
  token : Spanned String
  value : Value
  span : Span
  deriving Repr

/-- A comparison in the making. -/
structure Leaf where
  path : List String
  ending : Option Ending
  span : Span
  deriving Repr

namespace Leaf

/-- Refuse a leaf that has its ending already, when something at `place` is to follow. -/
def checkOpen (leaf : Leaf) (place : Span) : Except Fault Unit :=
  match leaf.ending with
  | none => .ok ()
  | some (token, _) => .error ⟨.alreadyCompared leaf.path token.value, place⟩

/-- A further segment behind a leaf. -/
def extend (segment : Spanned String) (leaf : Leaf) : Except Fault (Formula Leaf) :=
  match leaf.checkOpen segment.span with
  | .ok () => .ok (.leaf { leaf with path := leaf.path ++ [segment.value] })
  | .error fault => .error fault

/-- A group in place of a leaf, the leaf's path before every path in it. -/
def branch (place : Span) (inner : Formula Leaf) (leaf : Leaf) : Except Fault (Formula Leaf) :=
  match leaf.checkOpen place with
  | .ok () => .ok (inner.map fun below => { below with path := leaf.path ++ below.path })
  | .error fault => .error fault

/-- An ending for a leaf. -/
def close (ending : Ending) (leaf : Leaf) : Except Fault (Formula Leaf) :=
  match leaf.checkOpen ending.1.span with
  | .ok () => .ok (.leaf { leaf with ending := some ending })
  | .error fault => .error fault

/-- The comparison of a leaf that has its ending. -/
def finish (leaf : Leaf) : Except Fault RawComparison :=
  match leaf.ending with
  | some (token, value) => .ok ⟨leaf.path, token, value, leaf.span⟩
  | none => .error ⟨.missingOperator leaf.path, .point leaf.span.stop⟩

end Leaf

mutual
def Term.leaves : Term → Except Fault (Formula Leaf)
  | .any terms =>
      match Term.leavesList terms with
      | .ok parts => .ok (.any parts)
      | .error fault => .error fault
  | .all terms =>
      match Term.leavesList terms with
      | .ok parts => .ok (.all parts)
      | .error fault => .error fault
  | .path head steps ending span =>
      match Step.walk steps (.leaf ⟨[head.value], none, span⟩) with
      | .ok formula =>
          match ending with
          | none => .ok formula
          | some ending => formula.substitute (Leaf.close ending)
      | .error fault => .error fault

def Term.leavesList : List Term → Except Fault (List (Formula Leaf))
  | [] => .ok []
  | term :: rest =>
      match term.leaves with
      | .ok part =>
          match Term.leavesList rest with
          | .ok parts => .ok (part :: parts)
          | .error fault => .error fault
      | .error fault => .error fault

/-- The leaves behind a sequence of steps. -/
def Step.walk : List Step → Formula Leaf → Except Fault (Formula Leaf)
  | [], formula => .ok formula
  | .segment name :: rest, formula =>
      match formula.substitute (Leaf.extend name) with
      | .ok formula => Step.walk rest formula
      | .error fault => .error fault
  | .group term :: rest, formula =>
      match term.leaves with
      | .ok inner =>
          match formula.substitute (Leaf.branch term.start inner) with
          | .ok formula => Step.walk rest formula
          | .error fault => .error fault
      | .error fault => .error fault
end

def Term.expand (term : Term) : Except Fault (Formula RawComparison) :=
  match term.leaves with
  | .ok formula => formula.traverse Leaf.finish
  | .error fault => .error fault

end RequestQuery
