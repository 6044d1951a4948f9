import RequestQuery.Number.Binary64

/-!
# Shortest digits of a binary number

The fewest decimal digits that read back as the number, and of those the nearest to it. A layout then
says where the point goes and when an exponent is written, and which of two digits is taken if both
are as near.
-/

namespace RequestQuery

/-- Significant digits `d₁ d₂ …` and the power of ten of the first: `d₁.d₂… · 10 ^ exponent`. -/
structure Significant where
  digits : List Char
  exponent : Int
  deriving DecidableEq, Repr

/-- Which whole number is taken for a ratio halfway between two. -/
inductive Tie where
  | toEven
  | up
  deriving DecidableEq, Repr

def Ratio.round (r : Ratio) : Tie → Nat
  | .toEven => r.roundEven
  | .up => r.roundUp

namespace Binary64

/-- The ratios between which every number is nearest to a positive `x`. -/
def neighbourhood (x : Binary64) : Ratio × Ratio :=
  let below : Ratio :=
    if x.significand = Nat.pow 2 52 ∧ minExponent < x.exponent then
      Ratio.scale2 ⟨4 * x.significand - 1, 4⟩ x.exponent
    else Ratio.scale2 ⟨2 * x.significand - 1, 2⟩ x.exponent
  (below, Ratio.scale2 ⟨2 * x.significand + 1, 2⟩ x.exponent)

/-- Whether a ratio reads back as `x`; the ends of its neighbourhood do if the significand is even. -/
def readsBack (x : Binary64) (r : Ratio) : Bool :=
  let (low, high) := x.neighbourhood
  if x.significand % 2 = 0 then
    low.num * r.den ≤ r.num * low.den && r.num * high.den ≤ high.num * r.den
  else low.num * r.den < r.num * low.den && r.num * high.den < high.num * r.den

/-- The candidate of a grid of decimals nearest to `x` that reads back: of the two neighbours of `x`
on the grid with step `10 ^ step` the nearer one. -/
def onGrid? (x : Binary64) (tie : Tie) (step : Int) : Option Nat :=
  let scaled := x.ratio.scale10 (-step)
  let low := scaled.num / scaled.den
  let reads := fun d : Nat => x.readsBack (Ratio.scale10 ⟨d, 1⟩ step)
  let nearest := scaled.round tie
  if reads nearest then some nearest
  else if reads low then some low
  else if reads (low + 1) then some (low + 1)
  else none

/-- Try grids of more and more digits. -/
def firstOnGrid (x : Binary64) (tie : Tie) (exponent : Int) : Nat → Nat → Nat × Int
  | 0, digits => ((x.ratio.scale10 (Int.ofNat digits - exponent)).round tie,
      exponent - Int.ofNat digits)
  | fuel + 1, digits =>
      let step := exponent - Int.ofNat digits
      match x.onGrid? tie step with
      | some d => (d, step)
      | none => firstOnGrid x tie exponent fuel (digits + 1)

/-- The shortest digits of a number that is not zero. -/
def shortest (x : Binary64) (tie : Tie) : Significant :=
  let (d, step) := firstOnGrid x tie x.ratio.log10 16 0
  let digits := Nat.toDigits 10 d
  let kept := (digits.reverse.dropWhile (· == '0')).reverse
  ⟨kept, step + Int.ofNat digits.length - 1⟩

end Binary64

structure FloatLayout where
  /-- The exponents for which no exponent is written. -/
  positional : Int → Bool
  /-- Whether a whole number keeps a zero behind the point. -/
  keepsPoint : Bool
  /-- The digits of a number halfway between two shortest ones. -/
  tie : Tie

/-- Put the point into digits without an exponent. -/
def placePoint (keepsPoint : Bool) (s : Significant) : List Char :=
  let count : Int := s.exponent + 1
  let length := Int.ofNat s.digits.length
  if count ≤ 0 then ['0', '.'] ++ List.replicate (-count).toNat '0' ++ s.digits
  else if length ≤ count then
    s.digits ++ List.replicate (count - length).toNat '0' ++ (if keepsPoint then ['.', '0'] else [])
  else s.digits.take count.toNat ++ ['.'] ++ s.digits.drop count.toNat

/-- Digits with the point behind the first and a signed exponent. -/
def withExponent (s : Significant) : List Char :=
  let head := match s.digits with
    | [] => ['0']
    | [d] => [d]
    | d :: ds => d :: '.' :: ds
  head ++ ['e', if s.exponent < 0 then '-' else '+'] ++ Nat.toDigits 10 s.exponent.natAbs

def FloatLayout.chars (layout : FloatLayout) (x : Binary64) : List Char :=
  let s := if x.significand = 0 then ⟨['0'], 0⟩ else x.shortest layout.tie
  (if x.negative then ['-'] else []) ++
    if layout.positional s.exponent then placePoint layout.keepsPoint s else withExponent s

/-- Numbers from `10 ^ -5` up to `10 ^ 16` are written out, with a digit behind the point. The last
digit of a tie is even. -/
def FloatLayout.wire : FloatLayout := ⟨fun e => -5 ≤ e && e < 16, true, .toEven⟩

/-- Every number is written out, whole numbers without a point. A tie goes up. -/
def FloatLayout.plain : FloatLayout := ⟨fun _ => true, false, .up⟩

end RequestQuery
