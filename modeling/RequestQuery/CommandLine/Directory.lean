import RequestQuery.Table
import RequestQuery.Text.Span
import RequestQuery.Text.Split

/-!
# A directory of files

A directory that holds files and no other directories. A path names a file in it if all its parts but
the last stay where they are.
-/

namespace RequestQuery.CommandLine

abbrev Directory := Table String

def maxNameLength : Nat := 255

/-- A path has fewer bytes than this. -/
def pathBound : Nat := 4096

/-- The parts that stay in the same directory. -/
def staysHere (part : List Char) : Bool := part == [] || part == ['.']

/-- The name of the file in the directory that a path leads to. -/
def fileName? (path : String) : Option String :=
  let parts := splitAtChar '/' path.toList
  match parts.getLast? with
  | none => none
  | some name =>
      if path.toList.head? = some '/' ∨ parts.dropLast.all staysHere = false ∨
          staysHere name ∨ name = ['.', '.'] ∨ maxNameLength < byteLength name ∨
          pathBound ≤ byteLength path.toList then none
      else some (String.ofList name)

def Directory.read? (directory : Directory) (path : String) : Option String :=
  match fileName? path with
  | some name => directory.find? name
  | none => none

/-- Write a file, which may be there already. -/
def Directory.write? (directory : Directory) (path text : String) : Option Directory :=
  match fileName? path with
  | some name => some (directory.put name text)
  | none => none

end RequestQuery.CommandLine
