import RequestQuery.Select.Node
import RequestQuery.Select.Path

/-!
# Merging a select into a tree

The paths of a select are put into a tree one after another. The values of parameters are read by the
rule for their name on the way, and an error in one of them is reported as an error of the select.
-/

namespace RequestQuery

/-- Names that no parameter may have. -/
def reservedParameters : List String := ["select", "aggregate"]

/-- Give an outcome of one type as one of another. -/
def ParameterValue.wrap {α : Type} (make : α → ParameterValue) :
    Except QueryError α → Except QueryError ParameterValue
  | .ok value => .ok (make value)
  | .error error => .error error

/-- Read the value of a parameter by the rule for its name. -/
def ParameterValue.parse (settings : FilterSettings) (name text : String) :
    Except QueryError ParameterValue :=
  if name = "filter" then wrap .filter (Filter.parse text settings)
  else if name = "order" then wrap .order (Order.parse text)
  else if name = "limit" then wrap .limit (Limit.parse text)
  else if name = "page" then wrap .page (Page.parse text)
  else if name = "id" then .ok (.id text)
  else if name = "search" then .ok (.search text)
  else .ok (.raw text)

namespace RawParameter

/-- An error in the value of a parameter as an error of the select around it. -/
def relocate (raw : RawParameter) (source : String) (error : QueryError) : QueryError :=
  let note := "in parameter `" ++ raw.name.value ++ "`"
  match error with
  | .validation code message =>
      (QueryError.semanticAt code message source raw.value.span).withContext note
  | other => (other.reanchor raw.value.span.start source).withContext note

/-- Read the value of a parameter of a select. -/
def read (settings : SelectSettings) (source : String) (raw : RawParameter) :
    Except QueryError ParameterValue :=
  if reservedParameters.contains raw.name.value then
    .error (Fault.toError ⟨.reservedParameter raw.name.value, raw.name.span⟩ source)
  else
    match ParameterValue.parse settings.filter raw.name.value raw.value.value with
    | .ok value => .ok value
    | .error error => .error (raw.relocate source error)

/-- Read parameters in order into a table. One that is there already has to have the same value. -/
def readAll (settings : SelectSettings) (source : String) (path : List String) :
    List RawParameter → Parameters → Except QueryError Parameters
  | [], table => .ok table
  | raw :: rest, table =>
      match raw.read settings source with
      | .error error => .error error
      | .ok value =>
          match table.find? raw.name.value with
          | none => readAll settings source path rest (table.put raw.name.value value)
          | some existing =>
              if existing == value then readAll settings source path rest table
              else .error (Fault.toError ⟨.conflict raw.name.value path, raw.name.span⟩ source)

end RawParameter

/-- The node of an attribute with its parameters, without children. -/
def Link.toNode (settings : SelectSettings) (source : String) (path : List String) (link : Link) :
    Except QueryError SelectNode :=
  match RawParameter.readAll settings source path link.parameters [] with
  | .ok parameters => .ok (.mk link.name.value parameters none)
  | .error error => .error error

/-- The node of an attribute merged into the one that the tree has under its name. -/
def SelectTree.meet (settings : SelectSettings) (source : String) (tree : SelectTree)
    (path : List String) (link : Link) : Except QueryError SelectNode :=
  match link.toNode settings source path with
  | .error error => .error error
  | .ok node =>
      match tree.find? link.name.value with
      | none => .ok node
      | some existing =>
          match existing.merge node with
          | .ok merged => .ok merged
          | .error conflict =>
              .error (Fault.toError ⟨.conflict conflict.parameter path, link.name.span⟩ source)

/-- Put a path below `above` into a tree. -/
def SelectTree.insertPath (settings : SelectSettings) (source : String) (above : List String) :
    LinkPath → SelectTree → Except QueryError SelectTree
  | [], tree => .ok tree
  | link :: rest, tree =>
      let path := above ++ [link.name.value]
      match SelectTree.meet settings source tree path link with
      | .error error => .error error
      | .ok node =>
          match rest with
          | [] => .ok (tree.put link.name.value node)
          | _ :: _ =>
              match SelectTree.insertPath settings source path rest node.childTable with
              | .error error => .error error
              | .ok children => .ok (tree.put link.name.value (node.setChildren children))

def SelectTree.insertPaths (settings : SelectSettings) (source : String) :
    List LinkPath → SelectTree → Except QueryError SelectTree
  | [], tree => .ok tree
  | path :: rest, tree =>
      match SelectTree.insertPath settings source [] path tree with
      | .error error => .error error
      | .ok tree => SelectTree.insertPaths settings source rest tree

def SelectTree.insertItems (settings : SelectSettings) (source : String) :
    List SelectItem → SelectTree → Except QueryError SelectTree
  | [], tree => .ok tree
  | item :: rest, tree =>
      match item.paths settings.maxDepth with
      | .error fault => .error (fault.toError source)
      | .ok paths =>
          match SelectTree.insertPaths settings source paths tree with
          | .error error => .error error
          | .ok tree => SelectTree.insertItems settings source rest tree

namespace SelectTree

/-- Merge the items of a select read from `source`. -/
def ofItems (items : List SelectItem) (source : String) (settings : SelectSettings) :
    Except QueryError SelectTree :=
  insertItems settings source items []

def parse (source : String) (settings : SelectSettings) : Except QueryError SelectTree :=
  match SelectItem.parse source settings with
  | .error error => .error error
  | .ok items => ofItems items source settings

end SelectTree

end RequestQuery
