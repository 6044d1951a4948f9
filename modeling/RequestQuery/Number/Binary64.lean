import RequestQuery.Number.Decimal

/-!
# Binary floating point numbers of 64 bits

A finite number is `± significand · 2 ^ exponent` with a significand below `2 ^ 53`. Every operation
rounds the exact result to the nearest such number, a tie going to the even significand, so all of
them are one function, `Binary64.ofRatio?`, applied to exact ratios.
-/

namespace RequestQuery

/-- A finite number `± significand · 2 ^ exponent`. -/
structure Binary64 where
  negative : Bool
  significand : Nat
  exponent : Int
  deriving DecidableEq, Repr

structure Ratio where
  num : Nat
  den : Nat
  deriving DecidableEq, Repr

namespace Ratio

def scale2 (r : Ratio) (exponent : Int) : Ratio :=
  match exponent with
  | .ofNat e => ⟨r.num * Nat.pow 2 e, r.den⟩
  | .negSucc e => ⟨r.num, r.den * Nat.pow 2 (e + 1)⟩

def scale10 (r : Ratio) (exponent : Int) : Ratio :=
  match exponent with
  | .ofNat e => ⟨r.num * Nat.pow 10 e, r.den⟩
  | .negSucc e => ⟨r.num, r.den * Nat.pow 10 (e + 1)⟩

/-- The nearest natural number, a tie going to the even one. -/
def roundEven (r : Ratio) : Nat :=
  let q := r.num / r.den
  let twice := 2 * (r.num % r.den)
  if twice < r.den then q
  else if r.den < twice then q + 1
  else if q % 2 = 0 then q else q + 1

/-- The nearest natural number, a tie going up. -/
def roundUp (r : Ratio) : Nat := (2 * r.num + r.den) / (2 * r.den)

/-- The exponent of the largest power of two that is not above a positive ratio. -/
def log2 (r : Ratio) : Int :=
  let guess : Int := Int.ofNat r.num.log2 - Int.ofNat r.den.log2
  let scaled := r.scale2 (-guess)
  if scaled.num < scaled.den then guess - 1 else guess

/-- The exponent of the largest power of ten that is not above a positive ratio. -/
def log10 (r : Ratio) : Int :=
  if r.den ≤ r.num then Int.ofNat (Nat.toDigits 10 (r.num / r.den)).length - 1
  else
    let places := (Nat.toDigits 10 (r.den / r.num)).length
    if r.num * Nat.pow 10 (places - 1) = r.den then 1 - Int.ofNat places else -Int.ofNat places

end Ratio

namespace Binary64

/-- The least exponent, that of the numbers next to zero. -/
def minExponent : Int := -1074

def maxExponent : Int := 971

/-- Zero, or the zero written with a minus sign. -/
def zero (negative : Bool) : Binary64 := ⟨negative, 0, minExponent⟩

/-- The magnitude as an exact ratio. -/
def ratio (x : Binary64) : Ratio := Ratio.scale2 ⟨x.significand, 1⟩ x.exponent

/-- The number nearest to an exact ratio, or nothing if that is too large. -/
def ofRatio? (negative : Bool) (r : Ratio) : Option Binary64 :=
  if r.num = 0 then some (zero negative)
  else
    let exponent := max minExponent (r.log2 - 52)
    let rounded := (r.scale2 (-exponent)).roundEven
    let (significand, exponent) :=
      if rounded = Nat.pow 2 53 then (Nat.pow 2 52, exponent + 1) else (rounded, exponent)
    if exponent ≤ maxExponent then some ⟨negative, significand, exponent⟩ else none

/-- The number nearest to an exact ratio that is known to be small enough. -/
def ofRatio (negative : Bool) (r : Ratio) : Binary64 := (ofRatio? negative r).getD (zero negative)

def ofNat (n : Nat) : Binary64 := ofRatio false ⟨n, 1⟩

def addMagnitudes (x y : Binary64) : Binary64 :=
  let a := x.ratio
  let b := y.ratio
  ofRatio false ⟨a.num * b.den + b.num * a.den, a.den * b.den⟩

/-- The product, with the sign of the first factor; nothing if it is too large. -/
def mulMagnitude? (x y : Binary64) : Option Binary64 :=
  let a := x.ratio
  let b := y.ratio
  ofRatio? x.negative ⟨a.num * b.num, a.den * b.den⟩

/-- The quotient by a number that is not zero, with the sign of the dividend. -/
def divMagnitude (x y : Binary64) : Binary64 :=
  let a := x.ratio
  let b := y.ratio
  ofRatio x.negative ⟨a.num * b.den, a.den * b.num⟩

/-- The whole number nearest to a magnitude, a half going up. -/
def roundWhole (x : Binary64) : Binary64 := ofRatio x.negative ⟨x.ratio.roundUp, 1⟩

/-- The integer a number is, if it is one. -/
def toInt? (x : Binary64) : Option Int :=
  let r := x.ratio
  if r.num % r.den = 0 then
    let magnitude := Int.ofNat (r.num / r.den)
    some (if x.negative then -magnitude else magnitude)
  else none

/-- A power by repeated squaring, each product rounded: `result · base ^ n`. -/
def powBySquaring (result base : Binary64) : Nat → Nat → Binary64
  | 0, _ => result
  | fuel + 1, n =>
      let result := if n % 2 = 1 then (mulMagnitude? result base).getD result else result
      if n / 2 = 0 then result
      else powBySquaring result ((mulMagnitude? base base).getD base) fuel (n / 2)

/-- Ten to a power of at most 28, by repeated squaring. -/
def powTen (n : Nat) : Binary64 := powBySquaring (ofNat 1) (ofNat 10) (n + 1) n

end Binary64

/-- The number a decimal is sent as. Whole decimals go to the nearest number. Of others the whole part
and the fraction are converted on their own and their sum is rounded to as many places as the scale
has, all in binary arithmetic. -/
def Decimal.toBinary64 (d : Decimal) : Binary64 :=
  let magnitude :=
    if d.scale = 0 then Binary64.ofNat d.mantissa
    else
      let unit := Nat.pow 10 d.scale
      let whole := Binary64.ofNat (d.mantissa / unit)
      let fraction := (Binary64.ofNat (d.mantissa % unit)).divMagnitude (Binary64.ofNat unit)
      if fraction.significand = 0 then whole
      else
        let sum := whole.addMagnitudes fraction
        let factor := Binary64.powTen d.scale
        let scaled := (sum.mulMagnitude? factor).getD sum
        scaled.roundWhole.divMagnitude factor
  { magnitude with negative := d.negative }

end RequestQuery
