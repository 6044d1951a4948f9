import RequestQuery.CommandLine.Message
import RequestQuery.Request
import RequestQuery.Text.Escaped

/-!
# The journal of a reading

The log entries that the reading of a filter, a select or a request makes, up to its first error.
-/

namespace RequestQuery.CommandLine

def expressionEntry (text : String) : Entry := ⟨.debug, "floraql_parser", text⟩

def filterJournal (settings : FilterSettings) (source : String) : List Entry :=
  expressionEntry ("parsing filter " ++ escapedText source) ::
    match Filter.parse source settings with
    | .ok filter => [expressionEntry
        ("filter parsed into " ++ toString filter.alternatives.length ++ " disjuncts")]
    | .error _ => []

/-- The entries of a parameter: a filter is the only value that makes any. -/
def parameterJournal (settings : SelectSettings) (raw : RawParameter) : List Entry :=
  if raw.name.value = "filter" then filterJournal settings.filter raw.value.value else []

/-- The entries of parameters that are read into a table. -/
def parametersJournal (settings : SelectSettings) (source : String) (path : List String) :
    List RawParameter → Parameters → List Entry
  | [], _ => []
  | raw :: rest, table =>
      parameterJournal settings raw ++
        match RawParameter.readAll settings source path [raw] table with
        | .ok table => parametersJournal settings source path rest table
        | .error _ => []

def pathJournal (settings : SelectSettings) (source : String) (above : List String) :
    LinkPath → SelectTree → List Entry
  | [], _ => []
  | link :: rest, tree =>
      let path := above ++ [link.name.value]
      parametersJournal settings source path link.parameters [] ++
        match SelectTree.meet settings source tree path link with
        | .ok node => pathJournal settings source path rest node.childTable
        | .error _ => []

def pathsJournal (settings : SelectSettings) (source : String) :
    List LinkPath → SelectTree → List Entry
  | [], _ => []
  | path :: rest, tree =>
      pathJournal settings source [] path tree ++
        match SelectTree.insertPath settings source [] path tree with
        | .ok tree => pathsJournal settings source rest tree
        | .error _ => []

def itemsJournal (settings : SelectSettings) (source : String) :
    List SelectItem → SelectTree → List Entry
  | [], _ => []
  | item :: rest, tree =>
      match item.paths settings.maxDepth with
      | .error _ => []
      | .ok paths =>
          pathsJournal settings source paths tree ++
            match SelectTree.insertPaths settings source paths tree with
            | .ok tree => itemsJournal settings source rest tree
            | .error _ => []

def selectJournal (settings : SelectSettings) (source : String) : List Entry :=
  expressionEntry ("parsing select " ++ escapedText source) ::
    match SelectItem.parse source settings with
    | .error _ => []
    | .ok items =>
        itemsJournal settings source items [] ++
          match SelectTree.ofItems items source settings with
          | .ok tree => [expressionEntry
              ("select parsed into " ++ toString tree.count ++ " nodes")]
          | .error _ => []

def knownProperties : List String :=
  ["id", "select", "filter", "order", "limit", "page", "search", "aggregate"]

def propertyJournal (settings : SelectSettings) (key : String) (document : Json) : List Entry :=
  match document with
  | .string source =>
      if key = "select" then selectJournal settings source
      else if key = "filter" then filterJournal settings.filter source
      else unknownEntry key
  | _ => unknownEntry key
where
  /-- The entry of an unknown property. -/
  unknownEntry (key : String) : List Entry :=
    if knownProperties.contains key then []
    else [⟨.debug, "floraql::request",
      "passing request property `" ++ key ++ "` through unparsed"⟩]

def propertiesJournal (settings : SelectSettings) :
    List (String × Json) → Request → List Entry
  | [], _ => []
  | (key, document) :: rest, request =>
      propertyJournal settings key document ++
        match Request.readProperty settings request key document with
        | .ok request => propertiesJournal settings rest request
        | .error _ => []

def requestJournal (settings : SelectSettings) : Json → List Entry
  | .object properties => propertiesJournal settings properties .empty
  | _ => []

end RequestQuery.CommandLine
