import RequestQuery.Select.Item

/-!
# The paths of a select

A chain of steps stands for plain paths of attributes: a group fans out into its members, and the steps
behind it follow each of them. The parameters of a group belong to the last attribute of each member.
-/

namespace RequestQuery

/-- An attribute of a path with all parameters that apply to it. -/
structure Link where
  name : Spanned String
  parameters : List RawParameter
  deriving DecidableEq, Repr

/-- Attributes, each below the one before. -/
abbrev LinkPath := List Link

def LinkPath.addParameters (parameters : List RawParameter) : LinkPath → LinkPath
  | [] => []
  | [link] => [{ link with parameters := link.parameters ++ parameters }]
  | link :: rest => link :: LinkPath.addParameters parameters rest

/-- A path that is not longer than the limit; else the first attribute past it is at fault. -/
def LinkPath.checkLength (limit : Nat) (path : LinkPath) : Except Fault LinkPath :=
  match path[limit]? with
  | some link => .error ⟨.pathTooLong limit, link.name.span⟩
  | none => .ok path

/-- Follow one path by every one of some paths. -/
def LinkPath.followAll (limit : Nat) (path : LinkPath) :
    List LinkPath → Except Fault (List LinkPath)
  | [] => .ok []
  | tail :: rest =>
      match LinkPath.checkLength limit (path ++ tail) with
      | .error fault => .error fault
      | .ok first =>
          match LinkPath.followAll limit path rest with
          | .error fault => .error fault
          | .ok more => .ok (first :: more)

/-- Follow every one of some paths by every one of others, the others varying fastest. -/
def LinkPath.cross (limit : Nat) (tails : List LinkPath) :
    List LinkPath → Except Fault (List LinkPath)
  | [] => .ok []
  | path :: rest =>
      match LinkPath.followAll limit path tails with
      | .error fault => .error fault
      | .ok first =>
          match LinkPath.cross limit tails rest with
          | .error fault => .error fault
          | .ok more => .ok (first ++ more)

mutual
def SelectItem.paths (limit : Nat) : SelectItem → Except Fault (List LinkPath)
  | .chain steps _ => SelectStep.walk limit steps [[]]

def SelectItem.pathsList (limit : Nat) : List SelectItem → Except Fault (List LinkPath)
  | [] => .ok []
  | item :: rest =>
      match item.paths limit with
      | .error fault => .error fault
      | .ok first =>
          match SelectItem.pathsList limit rest with
          | .error fault => .error fault
          | .ok more => .ok (first ++ more)

/-- The paths a step contributes. -/
def SelectStep.paths (limit : Nat) : SelectStep → Except Fault (List LinkPath)
  | .named name parameters => .ok [[⟨name, parameters⟩]]
  | .group members parameters span =>
      match members with
      | [] => .error ⟨.emptyGroup, span⟩
      | _ :: _ =>
          match SelectItem.pathsList limit members with
          | .error fault => .error fault
          | .ok paths => .ok (paths.map (LinkPath.addParameters parameters))

/-- Follow paths by steps. -/
def SelectStep.walk (limit : Nat) : List SelectStep → List LinkPath → Except Fault (List LinkPath)
  | [], paths => .ok paths
  | step :: rest, paths =>
      match step.paths limit with
      | .error fault => .error fault
      | .ok tails =>
          match LinkPath.cross limit tails paths with
          | .error fault => .error fault
          | .ok paths => SelectStep.walk limit rest paths
end

end RequestQuery
