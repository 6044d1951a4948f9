import RequestQuery.Diagnostic.Error
import RequestQuery.Json.Number

/-!
# Limits and pages

Both are positive integers that every JSON number can carry. A limit may also be `unlimited`.
-/

namespace RequestQuery

/-- How many items are wanted. -/
inductive Limit where
  | unlimited
  | count (n : Nat)
  deriving DecidableEq, Repr

namespace Limit

def count? : Limit → Option Nat
  | .unlimited => none
  | .count n => some n

/-- An unlimited limit is null. -/
def toJson (limit : Limit) : Json := .orNull .nat limit.count?

end Limit

/-- The largest integer below which every integer is a binary number of 64 bits. -/
def maxSafeInteger : Int := Nat.pow 2 53 - 1

/-- What is wrong with a number of items or pages. -/
inductive PagingFault where
  | notInteger
  | notPositive
  deriving DecidableEq, Repr

/-- A property that is a positive integer, with its wording. -/
structure PagingProperty where
  typeMessage : String
  rangeMessage : String

namespace PagingProperty

def limit : PagingProperty :=
  ⟨"limit must be an integer or \"unlimited\"", "limit must be greater than 0"⟩

def page : PagingProperty := ⟨"page must be an integer", "page must be greater than 0"⟩

def error (property : PagingProperty) : PagingFault → QueryError
  | .notInteger => .validation .invalidType property.typeMessage
  | .notPositive => .validation .valueOutOfRange property.rangeMessage

end PagingProperty

/-- A positive integer that is safe. -/
def positive (value : Option Int) : Except PagingFault Nat :=
  match value with
  | none => .error .notInteger
  | some n =>
      if n < -maxSafeInteger ∨ maxSafeInteger < n then .error .notInteger
      else if n < 1 then .error .notPositive
      else .ok n.toNat

/-- The integer of a text: digits, and a minus sign before them if need be. -/
def integerOfText? (text : List Char) : Option Int :=
  let (negative, digits) := match text with
    | '-' :: cs => (true, cs)
    | cs => (false, cs)
  if digits ≠ [] ∧ digits.all Char.isDigit then
    let magnitude := Int.ofNat (Nat.ofDigitChars 10 digits 0)
    some (if negative then -magnitude else magnitude)
  else none

/-- The integer of a document: a number without a fraction. -/
def integerOfJson? : Json → Option Int
  | .number (.integer n) => some n
  | .number (.float x) => x.toInt?
  | _ => none

def PagingProperty.check (property : PagingProperty) (value : Option Int) : Except QueryError Nat :=
  match positive value with
  | .ok n => .ok n
  | .error fault => .error (property.error fault)

namespace Limit

def ofInteger (value : Option Int) : Except QueryError Limit :=
  match PagingProperty.limit.check value with
  | .ok n => .ok (.count n)
  | .error error => .error error

def parse (source : String) : Except QueryError Limit :=
  if source = "unlimited" then .ok .unlimited else ofInteger (integerOfText? source.toList)

/-- The limit of a document: a number, or the text of a limit. -/
def ofJson : Json → Except QueryError Limit
  | .string s => parse s
  | document => ofInteger (integerOfJson? document)

end Limit

namespace Page

def parse (source : String) : Except QueryError Nat :=
  PagingProperty.page.check (integerOfText? source.toList)

/-- The page number of a document: a number, or the text of one. -/
def ofJson : Json → Except QueryError Nat
  | .string s => parse s
  | document => PagingProperty.page.check (integerOfJson? document)

/-- The page number of a document that may be missing; then it is the first page. -/
def ofOptional : Option Json → Except QueryError Nat
  | none => .ok 1
  | some document => ofJson document

end Page

end RequestQuery
