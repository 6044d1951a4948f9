import RequestQuery.Number.Decimal

/-!
# Decimals written freely

A decimal may be written with a sign of either kind, without digits on one side of the point, with
`_` between its digits, and with an exponent. Digits that do not fit are rounded away, and the first
of them decides which way.
-/

namespace RequestQuery

namespace Decimal

/-- Whether a character may stand in the digits of a freely written decimal. -/
def isFreeDigit (c : Char) : Bool := c.isDigit || c == '_'

def splitSign : List Char → Bool × List Char
  | '-' :: cs => (true, cs)
  | '+' :: cs => (false, cs)
  | cs => (false, cs)

/-- Mantissas below this bound are narrow: any further digit still fits one word of 64 bits. -/
def narrowBound : Nat := (Nat.pow 2 64 - 1) / 10 - 255

/-- Append freely written digits behind the point to a mantissa. Underscores are skipped, but one
right behind the last place counts as a zero there if the mantissa was narrow before that place. -/
def readFreeFraction (mantissa scale : Nat) : List Char → Accumulated
  | [] => .kept mantissa scale
  | c :: cs =>
      if c = '_' then
        if scale = maxScale ∧ mantissa / 10 < narrowBound then roundAt mantissa scale 0
        else readFreeFraction mantissa scale cs
      else
        let next := 10 * mantissa + digitValue c
        if scale < maxScale ∧ next < mantissaBound then readFreeFraction next (scale + 1) cs
        else roundAt mantissa scale (digitValue c)

/-- Without underscores the free reading is the plain one. -/
theorem readFreeFraction_eq_readFraction {digits : List Char} (h : '_' ∉ digits)
    (mantissa scale : Nat) :
    readFreeFraction mantissa scale digits = readFraction mantissa scale digits := by
  induction digits generalizing mantissa scale with
  | nil => rfl
  | cons c digits ih =>
      simp only [List.mem_cons, not_or] at h
      simp [readFreeFraction, readFraction, Ne.symm h.1, ih h.2]

def accumulateFree (whole fraction : List Char) : Accumulated :=
  match readWhole 0 (whole.filter Char.isDigit) with
  | some mantissa => readFreeFraction mantissa 0 fraction
  | none => .overflow

/-- A decimal without exponent. The first character besides the point has to be a digit. -/
def readPlain? (text : List Char) : Option Decimal :=
  let (negative, body) := splitSign text
  let whole := body.takeWhile (· != '.')
  let fraction := (body.dropWhile (· != '.')).drop 1
  match whole ++ fraction with
  | [] => none
  | c :: cs =>
      if c.isDigit && cs.all isFreeDigit then
        match accumulateFree whole fraction with
        | .kept mantissa scale => signed? negative mantissa scale
        | .rounded mantissa scale => signed? negative mantissa scale
        | .overflow => none
      else none

/-- An unsigned exponent of at most 28; one `+` may stand before it. -/
def readExponent? (text : List Char) : Option Nat :=
  let digits := match text with
    | '+' :: cs => cs
    | cs => cs
  if digits ≠ [] ∧ digits.all Char.isDigit then
    let value := Nat.ofDigitChars 10 digits 0
    if value ≤ maxScale then some value else none
  else none

/-- Divide by a power of ten, a half going up. -/
def divideRounded (mantissa places : Nat) : Nat :=
  (2 * mantissa + Nat.pow 10 places) / (2 * Nat.pow 10 places)

/-- Move the point to the left; digits past the largest scale are rounded, a half away from zero. -/
def shiftLeft? (d : Decimal) (places : Nat) : Option Decimal :=
  if d.scale + places ≤ maxScale then ofParts? d.negative d.mantissa (d.scale + places)
  else ofParts? d.negative (divideRounded d.mantissa (d.scale + places - maxScale)) maxScale

/-- Move the point to the right. Past the last digit the number is whole and has to fit. -/
def shiftRight? (d : Decimal) (places : Nat) : Option Decimal :=
  if places ≤ d.scale then ofParts? d.negative d.mantissa (d.scale - places)
  else signed? d.negative (d.mantissa * Nat.pow 10 (places - d.scale)) 0

/-- A decimal followed by `e` or `E` and an exponent. -/
def readScientific? (text : List Char) : Option Decimal :=
  let isMark := fun c : Char => c == 'e' || c == 'E'
  match text.dropWhile (fun c => !isMark c) with
  | [] => none
  | _ :: exponent => do
      let base ← readPlain? (text.takeWhile fun c => !isMark c)
      match exponent with
      | '-' :: digits => base.shiftLeft? (← readExponent? digits)
      | digits => base.shiftRight? (← readExponent? digits)

def read? (text : List Char) : Option Decimal := readPlain? text <|> readScientific? text

end Decimal

end RequestQuery
