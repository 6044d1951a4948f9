/-!
# Decimals

A decimal is a sign, a mantissa below `2 ^ 96` and a scale of at most 28: the number
`± mantissa / 10 ^ scale`. The scale is kept, so `1.10` is written back as `1.10`, but two decimals
are equal when their numbers are.
-/

namespace RequestQuery

def digitValue (c : Char) : Nat := c.toNat - '0'.toNat

/-- The last `width` decimal digits of a number, leading zeros included. -/
def fixedDigits : Nat → Nat → List Char
  | 0, _ => []
  | width + 1, n => fixedDigits width (n / 10) ++ [Nat.digitChar (n % 10)]

/-- A sign, a mantissa and the number of its digits that follow the point. -/
structure Decimal where
  negative : Bool
  mantissa : Nat
  scale : Nat
  mantissa_lt : mantissa < Nat.pow 2 96
  scale_le : scale ≤ 28
  deriving DecidableEq, Repr

namespace Decimal

/-- Mantissas stay below this bound. -/
def mantissaBound : Nat := Nat.pow 2 96

def maxScale : Nat := 28

/-- The decimal with the given parts, if they are within the bounds. -/
def ofParts? (negative : Bool) (mantissa scale : Nat) : Option Decimal :=
  if h : mantissa < Nat.pow 2 96 ∧ scale ≤ 28 then some ⟨negative, mantissa, scale, h.1, h.2⟩
  else none

/-- Equality of the numbers written: the scale does not matter, nor does the sign of a zero. -/
def sameNumber (a b : Decimal) : Bool :=
  (a.mantissa == 0 && b.mantissa == 0) ||
    (a.negative == b.negative && a.mantissa * Nat.pow 10 b.scale == b.mantissa * Nat.pow 10 a.scale)

instance : BEq Decimal := ⟨sameNumber⟩

/-- Written with all digits of its scale. -/
def chars (d : Decimal) : List Char :=
  (if d.negative then ['-'] else []) ++ Nat.toDigits 10 (d.mantissa / Nat.pow 10 d.scale) ++
    (if d.scale = 0 then [] else '.' :: fixedDigits d.scale (d.mantissa % Nat.pow 10 d.scale))

def text (d : Decimal) : String := String.ofList d.chars

/-- What reading digits into a bounded mantissa comes to. -/
inductive Accumulated where
  /-- Every digit is in the mantissa. -/
  | kept (mantissa scale : Nat)
  /-- The digits past the bounds were rounded away. -/
  | rounded (mantissa scale : Nat)
  /-- The number is too large. -/
  | overflow
  deriving DecidableEq, Repr

/-- Append the digits before the point to a mantissa. -/
def readWhole (mantissa : Nat) : List Char → Option Nat
  | [] => some mantissa
  | c :: cs =>
      let next := 10 * mantissa + digitValue c
      if next < mantissaBound then readWhole next cs else none

/-- Round at the first digit that does not fit. A mantissa that leaves its bound by this gives up
its own last digit, if that is behind the point. -/
def roundAt (mantissa scale digit : Nat) : Accumulated :=
  if digit < 5 then .rounded mantissa scale
  else if mantissa + 1 < mantissaBound then .rounded (mantissa + 1) scale
  else if scale = 0 then .overflow
  else .rounded ((mantissa + 1 + 4) / 10) (scale - 1)

/-- Append the digits behind the point to a mantissa. -/
def readFraction (mantissa scale : Nat) : List Char → Accumulated
  | [] => .kept mantissa scale
  | c :: cs =>
      let next := 10 * mantissa + digitValue c
      if scale < maxScale ∧ next < mantissaBound then readFraction next (scale + 1) cs
      else roundAt mantissa scale (digitValue c)

def accumulate (whole fraction : List Char) : Accumulated :=
  match readWhole 0 whole with
  | some mantissa => readFraction mantissa 0 fraction
  | none => .overflow

/-- A decimal with a plain zero: a zero loses its sign. -/
def signed? (negative : Bool) (mantissa scale : Nat) : Option Decimal :=
  ofParts? (negative && mantissa != 0) mantissa scale

end Decimal

end RequestQuery
