import RequestQuery.Filter.Normal
import RequestQuery.Order
import RequestQuery.Paging

/-!
# Select nodes and trees

A node is a selected attribute with its parameters and the attributes below it. Two occurrences of an
attribute merge into one: the children are united, and of two sets of parameters one has to be empty
or both the same. A merge that meets a conflict keeps what it has merged so far.
-/

namespace RequestQuery

/-- The value of a parameter, read by the rule for its name. -/
inductive ParameterValue where
  | filter (f : Filter)
  | order (keys : Order)
  | limit (l : Limit)
  | page (n : Nat)
  | id (s : String)
  | search (s : String)
  /-- A parameter of no known name, as it is written. -/
  | raw (s : String)
  deriving Repr, DecidableEq

namespace ParameterValue

/-- Equality of values of one kind; decimals are compared as numbers. -/
def same : ParameterValue → ParameterValue → Bool
  | .filter a, .filter b => a == b
  | .order a, .order b => a == b
  | .limit a, .limit b => a == b
  | .page a, .page b => a == b
  | .id a, .id b => a == b
  | .search a, .search b => a == b
  | .raw a, .raw b => a == b
  | _, _ => false

instance : BEq ParameterValue := ⟨same⟩

def toJson : ParameterValue → Json
  | .filter f => f.toJson
  | .order keys => keys.toJson
  | .limit l => l.toJson
  | .page n => .nat n
  | .id s => .string s
  | .search s => .string s
  | .raw s => .string s

end ParameterValue

abbrev Parameters := Table ParameterValue

/-- A selected attribute. No children is not the same as an empty table of children. -/
inductive SelectNode where
  | mk (name : String) (parameters : List (String × ParameterValue))
      (children : Option (List (String × SelectNode)))
  deriving Repr

/-- Selected attributes by name. -/
abbrev SelectTree := Table SelectNode

/-- Two occurrences of an attribute that cannot be merged: its path, and a parameter in which they
differ. -/
structure MergeConflict where
  path : List String
  parameter : String
  deriving DecidableEq, Repr

def MergeConflict.message (conflict : MergeConflict) : String :=
  (Cause.conflict conflict.parameter conflict.path).message

namespace SelectNode

def bare (name : String) : SelectNode := .mk name [] none

def name : SelectNode → String
  | .mk name _ _ => name

def parameters : SelectNode → Parameters
  | .mk _ parameters _ => parameters

def children : SelectNode → Option SelectTree
  | .mk _ _ children => children

/-- The children, none being an empty table. -/
def childTable (node : SelectNode) : SelectTree := node.children.getD []

def setParameters : SelectNode → Parameters → SelectNode
  | .mk name _ children, parameters => .mk name parameters children

def setChildren : SelectNode → SelectTree → SelectNode
  | .mk name parameters _, children => .mk name parameters (some children)

def withParameter (node : SelectNode) (key : String) (value : ParameterValue) : SelectNode :=
  node.setParameters (node.parameters.put key value)

/-- Put a child under its own name. -/
def withChild (node child : SelectNode) : SelectNode :=
  node.setChildren (node.childTable.put child.name child)

end SelectNode

/-- A parameter in which two tables differ: one of `other` that is missing in `own` or has another
value there, or else one of `own` that is missing in `other`. -/
def Parameters.difference (own other : Parameters) : String :=
  match List.find? (fun e => !(own.find? e.1 == some e.2)) other with
  | some e => e.1
  | none =>
      match List.find? (fun e => !other.has e.1) own with
      | some e => e.1
      | none => ""

/-- The parameters of two occurrences: those of the one that has any. If both have some they have to
be the same. -/
def Parameters.merge (own other : Parameters) : Except String Parameters :=
  if other.isEmpty then .ok own
  else if own.isEmpty then .ok other
  else if Table.same own other then .ok own
  else .error (own.difference other)

namespace SelectNode

mutual
/-- Merge another occurrence into a node. What was merged before a conflict stays. -/
def absorb (own : SelectNode) : SelectNode → SelectNode × Option MergeConflict
  | .mk _ parameters children =>
      match Parameters.merge own.parameters parameters with
      | .error parameter => (own, some ⟨[own.name], parameter⟩)
      | .ok merged =>
          let own := own.setParameters merged
          let (table, conflict) := absorbChildren own.children children
          (.mk own.name own.parameters table,
            conflict.map fun c => { c with path := own.name :: c.path })

/-- Merge the children of another occurrence, if it has a table of them. -/
def absorbChildren (own : Option SelectTree) :
    Option (List (String × SelectNode)) → Option SelectTree × Option MergeConflict
  | none => (own, none)
  | some others =>
      let (table, conflict) := absorbEntries (own.getD []) others
      (some table, conflict)

/-- Merge entries one after another up to the first conflict. -/
def absorbEntries (own : SelectTree) :
    List (String × SelectNode) → SelectTree × Option MergeConflict
  | [] => (own, none)
  | (key, child) :: rest =>
      match own.find? key with
      | none => absorbEntries (own.put key child) rest
      | some existing =>
          let (merged, conflict) := existing.absorb child
          match conflict with
          | some conflict => (own.put key merged, some conflict)
          | none => absorbEntries (own.put key merged) rest
end

def merge (own other : SelectNode) : Except MergeConflict SelectNode :=
  match own.absorb other with
  | (node, none) => .ok node
  | (_, some conflict) => .error conflict

mutual
def count : SelectNode → Nat
  | .mk _ _ children => 1 + countChildren children

def countChildren : Option (List (String × SelectNode)) → Nat
  | none => 0
  | some entries => countEntries entries

def countEntries : List (String × SelectNode) → Nat
  | [] => 0
  | (_, node) :: rest => node.count + countEntries rest
end

mutual
/-- The parameters, and the children under the key `select`. -/
def toJson : SelectNode → Json
  | .mk _ parameters children =>
      let members := Table.putAll [] (parameters.map fun (key, value) => (key, value.toJson))
      .object (childrenJson members children)

def childrenJson (members : Table Json) : Option (List (String × SelectNode)) → Table Json
  | none => members
  | some entries => members.put "select" (.object (entriesJson entries))

def entriesJson : List (String × SelectNode) → List (String × Json)
  | [] => []
  | (key, node) :: rest => (key, node.toJson) :: entriesJson rest
end

end SelectNode

namespace SelectTree

def count (tree : SelectTree) : Nat := SelectNode.countEntries tree

def toJson (tree : SelectTree) : Json := .object (SelectNode.entriesJson tree)

/-- Put a node under its name, merged into the node that is there. What was merged before a conflict
stays. -/
def absorb (tree : SelectTree) (node : SelectNode) : SelectTree × Option MergeConflict :=
  match tree.find? node.name with
  | none => (tree.put node.name node, none)
  | some existing =>
      let (merged, conflict) := existing.absorb node
      (tree.put node.name merged, conflict)

/-- Put a node under its name, merged into the node that is there. -/
def insertMerged (tree : SelectTree) (node : SelectNode) : Except MergeConflict SelectTree :=
  match tree.absorb node with
  | (tree, none) => .ok tree
  | (_, some conflict) => .error conflict

/-- A tree of nodes under their own names; of two with one name the last stays, in the first's
place. -/
def ofNodes (nodes : List SelectNode) : SelectTree :=
  Table.putAll [] (nodes.map fun node => (node.name, node))

end SelectTree

end RequestQuery
