import RequestQuery.Json.Basic

/-!
# Reading JSON numbers

The digits of a number are gathered into a significand of 64 bits; those that do not fit only count
for the exponent. A number without fraction and exponent that fits is an integer. Any other is the
significand times a power of ten, computed in binary arithmetic.
-/

namespace RequestQuery

namespace JsonNumber

/-- Significands stay below this bound. -/
def significandBound : Nat := Nat.pow 2 64

/-- Append digits to a significand as long as it stays within its bound; the rest is left over. -/
def absorb (significand : Nat) : List Char → Nat × List Char
  | [] => (significand, [])
  | c :: cs =>
      let next := 10 * significand + digitValue c
      if next < significandBound then absorb next cs else (significand, c :: cs)

/-- The largest power of ten that is multiplied at once. -/
def maxPower : Nat := 308

/-- Multiply by a power of ten. Far below zero the power is taken in parts, `fuel` of them, after
which nothing is left of a significand. -/
def scaleTen? (x : Binary64) (exponent : Int) : Nat → Option Binary64
  | 0 => some (Binary64.zero x.negative)
  | fuel + 1 =>
      if exponent.natAbs ≤ maxPower then
        let power := Binary64.ofNat (Nat.pow 10 exponent.natAbs)
        if 0 ≤ exponent then x.mulMagnitude? power else some (x.divMagnitude power)
      else if x.significand = 0 then some x
      else if 0 ≤ exponent then none
      else scaleTen? (x.divMagnitude (Binary64.ofNat (Nat.pow 10 maxPower))) (exponent + maxPower) fuel

/-- The number of a significand and an exponent, unless it is too large. -/
def ofParts? (negative : Bool) (significand : Nat) (exponent : Int) : Option JsonNumber :=
  (scaleTen? { Binary64.ofNat significand with negative := negative } exponent 4).map .float

def ofWhole? (negative : Bool) (significand dropped : Nat) : Option JsonNumber :=
  if dropped ≠ 0 then ofParts? negative significand dropped
  else if !negative then some (.integer significand)
  else if 0 < significand ∧ significand ≤ Nat.pow 2 63 then some (.integer (-significand))
  else ofParts? true significand 0

/-- The exponent behind `e` or `E` and the rest of the text. -/
def readExponent? (text : List Char) : Option (Int × List Char) :=
  let (negative, body) := match text with
    | '-' :: cs => (true, cs)
    | '+' :: cs => (false, cs)
    | cs => (false, cs)
  let digits := body.takeWhile Char.isDigit
  if digits = [] then none
  else
    let value := Int.ofNat (Nat.ofDigitChars 10 digits 0)
    some (if negative then -value else value, body.dropWhile Char.isDigit)

/-- What may follow the digits before the point: a fraction, an exponent, both or nothing. -/
def readTail? (negative : Bool) (significand dropped : Nat) (text : List Char) :
    Option (JsonNumber × List Char) :=
  match text with
  | '.' :: cs =>
      let digits := cs.takeWhile Char.isDigit
      let rest := cs.dropWhile Char.isDigit
      let (significand, left) := absorb significand digits
      let exponent : Int := dropped - (digits.length - left.length)
      if digits = [] then none
      else
        match rest with
        | c :: after =>
            if c = 'e' ∨ c = 'E' then do
              let (shift, rest) ← readExponent? after
              let n ← ofParts? negative significand (exponent + shift)
              pure (n, rest)
            else (ofParts? negative significand exponent).map (·, rest)
        | [] => (ofParts? negative significand exponent).map (·, [])
  | c :: cs =>
      if c = 'e' ∨ c = 'E' then do
        let (shift, rest) ← readExponent? cs
        let n ← ofParts? negative significand (dropped + shift)
        pure (n, rest)
      else (ofWhole? negative significand dropped).map (·, text)
  | [] => (ofWhole? negative significand dropped).map (·, [])

/-- A number at the start of a text, and the rest of the text. -/
def read? (text : List Char) : Option (JsonNumber × List Char) :=
  let (negative, body) := match text with
    | '-' :: cs => (true, cs)
    | cs => (false, cs)
  let digits := body.takeWhile Char.isDigit
  let (significand, left) := absorb 0 digits
  if digits = [] ∨ (digits.head? = some '0' ∧ digits.length ≠ 1) then none
  else readTail? negative significand left.length (body.dropWhile Char.isDigit)

/-- Written as an integer, or as a binary fraction in the layout of the wire. -/
def text : JsonNumber → String
  | .integer n => toString n
  | .float x => String.ofList (FloatLayout.wire.chars x)

end JsonNumber

end RequestQuery
