/-!
# Formulas

Leaves joined by "any of" and "all of". Most passes over a filter replace the leaves and keep the rest,
so they are instances of `Formula.substitute`.
-/

namespace RequestQuery

/-- Leaves joined by alternatives and conjunctions. -/
inductive Formula (α : Type) where
  | any (parts : List (Formula α))
  | all (parts : List (Formula α))
  | leaf (value : α)
  deriving Repr

namespace Formula

variable {α β ε : Type}

mutual
def leaves : Formula α → List α
  | .any parts => leavesList parts
  | .all parts => leavesList parts
  | .leaf a => [a]

def leavesList : List (Formula α) → List α
  | [] => []
  | part :: rest => part.leaves ++ leavesList rest
end

mutual
def map (f : α → β) : Formula α → Formula β
  | .any parts => .any (mapList f parts)
  | .all parts => .all (mapList f parts)
  | .leaf a => .leaf (f a)

def mapList (f : α → β) : List (Formula α) → List (Formula β)
  | [] => []
  | part :: rest => part.map f :: mapList f rest
end

mutual
/-- Put a formula in place of every leaf, from left to right. The first leaf for which there is none
decides the outcome. -/
def substitute (f : α → Except ε (Formula β)) : Formula α → Except ε (Formula β)
  | .any parts =>
      match substituteList f parts with
      | .ok parts => .ok (.any parts)
      | .error e => .error e
  | .all parts =>
      match substituteList f parts with
      | .ok parts => .ok (.all parts)
      | .error e => .error e
  | .leaf a => f a

def substituteList (f : α → Except ε (Formula β)) :
    List (Formula α) → Except ε (List (Formula β))
  | [] => .ok []
  | part :: rest =>
      match part.substitute f with
      | .ok part =>
          match substituteList f rest with
          | .ok rest => .ok (part :: rest)
          | .error e => .error e
      | .error e => .error e
end

/-- Change every leaf from left to right; the first that cannot be changed decides the outcome. -/
def traverse (f : α → Except ε β) : Formula α → Except ε (Formula β) :=
  substitute fun a =>
    match f a with
    | .ok b => .ok (.leaf b)
    | .error e => .error e

mutual
/-- The truth value for given truth values of the leaves. -/
def eval (truth : α → Bool) : Formula α → Bool
  | .any parts => evalAny truth parts
  | .all parts => evalAll truth parts
  | .leaf a => truth a

def evalAny (truth : α → Bool) : List (Formula α) → Bool
  | [] => false
  | part :: rest => part.eval truth || evalAny truth rest

def evalAll (truth : α → Bool) : List (Formula α) → Bool
  | [] => true
  | part :: rest => part.eval truth && evalAll truth rest
end

mutual
/-- The equivalent list of alternatives, each a list of leaves that must all hold. -/
def alternatives : Formula α → List (List α)
  | .any parts => anyAlternatives parts
  | .all parts => allAlternatives parts
  | .leaf a => [[a]]

def anyAlternatives : List (Formula α) → List (List α)
  | [] => []
  | part :: rest => part.alternatives ++ anyAlternatives rest

/-- Every choice of one alternative from each formula; the last formula's vary fastest. -/
def allAlternatives : List (Formula α) → List (List α)
  | [] => [[]]
  | part :: rest =>
      let more := allAlternatives rest
      part.alternatives.flatMap fun left => more.map fun right => left ++ right
end

end Formula

end RequestQuery
