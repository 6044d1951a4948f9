import RequestQuery.Diagnostic.Fault
import RequestQuery.Json.Basic
import RequestQuery.Text.Split

/-!
# Orders

An order is a list of `attribute:direction` entries divided by commas, such as
`name:asc,instrument.id:desc`. A random direction stands alone.
-/

namespace RequestQuery

inductive Direction where
  | asc
  | desc
  | random
  | topflop
  deriving DecidableEq, Repr

namespace Direction

def name : Direction → String
  | .asc => "asc"
  | .desc => "desc"
  | .random => "random"
  | .topflop => "topflop"

/-- The direction with a name, which is taken as it is written. -/
def ofName? (name : String) : Option Direction :=
  if name = "asc" then some .asc
  else if name = "desc" then some .desc
  else if name = "random" then some .random
  else if name = "topflop" then some .topflop
  else none

theorem ofName?_name (direction : Direction) : ofName? direction.name = some direction := by
  cases direction <;> rfl

/-- A direction is given by its name, or by an object with that one member. -/
def ofJson? : Json → Option Direction
  | .string name => ofName? name
  | .object [(name, .null)] => ofName? name
  | _ => none

end Direction

/-- An attribute and the direction in which it is sorted. -/
structure OrderKey where
  path : List String
  direction : Direction
  deriving DecidableEq, Repr

namespace OrderKey

/-- Written as `attribute:direction`. -/
def display (key : OrderKey) : String := pathText key.path ++ ":" ++ key.direction.name

def toJson (key : OrderKey) : Json :=
  .object [("attribute", .strings key.path), ("direction", .string key.direction.name)]

end OrderKey

/-- Sort keys, the first one foremost. -/
abbrev Order := List OrderKey

inductive OrderFault where
  | emptyEntry
  | missingDirection (entry : String)
  | tooManyParts (entry : String)
  | missingAttribute
  | badAttribute (entry : String)
  | badDirection (entry : String)
  | randomNotAlone
  deriving DecidableEq, Repr

namespace OrderFault

def message : OrderFault → String
  | .emptyEntry => "order cannot be empty"
  | .missingDirection entry => "Invalid order parameter (missing direction): " ++ entry
  | .tooManyParts entry => "Invalid order parameter: " ++ entry
  | .missingAttribute => "No attribute set to order"
  | .badAttribute entry => "Invalid order attribute: " ++ entry
  | .badDirection entry => "Invalid order direction: " ++ entry
  | .randomNotAlone => "random order cannot be combined with other order entries"

def toError (fault : OrderFault) : QueryError := .validation .invalidOrder fault.message

end OrderFault

namespace OrderKey

def read (entry : List Char) : Except OrderFault OrderKey :=
  match splitAtChar ':' entry with
  | [path, direction] =>
      let segments := splitAtChar '.' path
      if path = [] then .error .missingAttribute
      else if segments.contains [] then .error (.badAttribute (String.ofList entry))
      else
        match Direction.ofName? (String.ofList direction) with
        | some direction => .ok ⟨segments.map String.ofList, direction⟩
        | none => .error (.badDirection (String.ofList entry))
  | [] => .error (.missingDirection (String.ofList entry))
  | [_] => .error (.missingDirection (String.ofList entry))
  | _ => .error (.tooManyParts (String.ofList entry))

/-- Read entries in order; the first wrong one decides the outcome. -/
def readAll : List (List Char) → Except OrderFault (List OrderKey)
  | [] => .ok []
  | entry :: rest =>
      match read entry with
      | .ok key =>
          match readAll rest with
          | .ok keys => .ok (key :: keys)
          | .error fault => .error fault
      | .error fault => .error fault

/-- A sort key from a document: an object, or an array of the two parts. Other members of the object
do not matter. -/
def ofJson? (document : Json) : Option OrderKey := do
  let (path, direction) ← match document with
    | .object members => do
        pure (← Table.find? members "attribute", ← Table.find? members "direction")
    | .array [path, direction] => some (path, direction)
    | _ => none
  let segments ← match path with
    | .array segments => segments.mapM Json.asString?
    | _ => none
  pure ⟨segments, ← Direction.ofJson? direction⟩

end OrderKey

namespace Order

def parseFault (source : String) : Except OrderFault Order :=
  let entries := splitAtChar ',' source.toList
  if entries.contains [] then .error .emptyEntry
  else
    match OrderKey.readAll entries with
    | .error fault => .error fault
    | .ok keys =>
        if 1 < keys.length ∧ keys.any (fun key => key.direction == .random) = true then
          .error .randomNotAlone
        else .ok keys

def parse (source : String) : Except QueryError Order :=
  match parseFault source with
  | .ok keys => .ok keys
  | .error fault => .error fault.toError

def toJson (order : Order) : Json := .array (order.map OrderKey.toJson)

def ofJson? : Json → Option Order
  | .array items => items.mapM OrderKey.ofJson?
  | _ => none

end Order

end RequestQuery
