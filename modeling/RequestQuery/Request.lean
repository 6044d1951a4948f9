import RequestQuery.Select.Merge

/-!
# Requests

A request is an object. Every known property is read by its own rule, an unknown one is kept as it is, in
the order of the object. The first property that is wrong decides the outcome.
-/

namespace RequestQuery

/-- A request with all known properties read. -/
structure Request where
  id : Option String
  select : Option SelectTree
  filter : Option Filter
  order : Option Order
  limit : Option Limit
  page : Option Nat
  search : Option String
  /-- The unknown properties. -/
  extra : Table Json

namespace Request

def empty : Request := ⟨none, none, none, none, none, none, none, []⟩

/-- A text, or the text of a number. -/
def textOfJson (message : String) : Json → Except QueryError String
  | .string s => .ok s
  | .number n => .ok n.text
  | _ => .error (.validation .invalidType message)

def parseId (document : Json) : Except QueryError String :=
  textOfJson "id only allows string or number" document

def parseSearch (document : Json) : Except QueryError String :=
  textOfJson "search only allows string or number" document

def parseOptionalSearch : Option Json → Except QueryError (Option String)
  | none => .ok none
  | some document =>
      match parseSearch document with
      | .ok text => .ok (some text)
      | .error error => .error error

/-- There are no aggregates. -/
def parseAggregate (_ : Json) : Except QueryError Unit :=
  .error (.validation .notImplemented "aggregate is not implemented")

/-- The text of a property that has to be a string. -/
def requireText (key : String) : Json → Except QueryError String
  | .string s => .ok s
  | _ => .error (.validation .invalidType (key ++ " must be a string"))

def readProperty (settings : SelectSettings) (request : Request) (key : String) (document : Json) :
    Except QueryError Request := do
  if key = "id" then
    pure { request with id := some (← parseId document) }
  else if key = "select" then
    pure { request with select := some (← SelectTree.parse (← requireText key document) settings) }
  else if key = "filter" then
    pure { request with filter := some (← Filter.parse (← requireText key document) settings.filter) }
  else if key = "order" then
    pure { request with order := some (← Order.parse (← requireText key document)) }
  else if key = "limit" then
    pure { request with limit := some (← Limit.ofJson document) }
  else if key = "page" then
    pure { request with page := some (← Page.ofJson document) }
  else if key = "search" then
    pure { request with search := some (← parseSearch document) }
  else if key = "aggregate" then
    let () ← parseAggregate document
    pure request
  else
    pure { request with extra := request.extra.put key document }

def readProperties (settings : SelectSettings) :
    List (String × Json) → Request → Except QueryError Request
  | [], request => .ok request
  | (key, document) :: rest, request =>
      match readProperty settings request key document with
      | .error error => .error (.request key error)
      | .ok request => readProperties settings rest request

def parse (document : Json) (settings : SelectSettings) : Except QueryError Request :=
  match document with
  | .object properties => readProperties settings properties empty
  | _ => .error (.validation .invalidRequest "Cannot parse request: must be an object")

def optionalMember {α : Type} (key : String) (encode : α → Json) :
    Option α → List (String × Json)
  | some value => [(key, encode value)]
  | none => []

/-- The known properties that are present, in a fixed order, and then the unknown ones. -/
def toJson (request : Request) : Json :=
  .object (Table.putAll []
    (optionalMember "id" .string request.id ++
      optionalMember "select" SelectTree.toJson request.select ++
      optionalMember "filter" Filter.toJson request.filter ++
      optionalMember "order" Order.toJson request.order ++
      optionalMember "limit" Limit.toJson request.limit ++
      optionalMember "page" .nat request.page ++
      optionalMember "search" .string request.search ++ request.extra))

end Request

end RequestQuery
