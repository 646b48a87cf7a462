/-!
# File names

A file name is read as a path: a root, then names separated by slashes. Before a file is opened
its name is put in normal form. Empty names and `.` between slashes say nothing and go, a slash
at the end goes, `..` stays, as it may climb out of a linked directory. One slash at the front
is the root; exactly two slashes at the front are a root of their own kind and stay two; three
or more are one. A name with nothing left is `.`, the current directory. The normal form is the
name shown in reports about the file, and the name the system is asked for.
-/

namespace SimpleLR.FileSystem

/-- The root of a file name: empty for a relative name, `/` or `//` for an absolute one. -/
def root (cs : List Char) : String :=
  match cs with
  | '/' :: '/' :: '/' :: _ => "/"
  | '/' :: '/' :: _ => "//"
  | '/' :: _ => "/"
  | _ => ""

/-- The names of a path in order, without empty names and `.`. -/
def names (cs : List Char) : List String :=
  ((cs.splitOn '/').filter fun p => !p.isEmpty && p != ['.']).map String.ofList

/-- The normal form of a file name. -/
def normalize (path : String) : String :=
  let cs := path.toList
  let body := root cs ++ "/".intercalate (names cs)
  if body.isEmpty then "." else body

example : normalize "" = "." ∧ normalize "./" = "." ∧ normalize "./." = "." ∧
    normalize "./-" = "-" ∧ normalize "-/" = "-" ∧ normalize "no//such" = "no/such" ∧
    normalize "no/./such/" = "no/such" ∧ normalize "//" = "//" ∧ normalize "///a//" = "/a" ∧
    normalize "/../x/.." = "/../x/.." := by
  decide +kernel

/-- Whether a path starts at the root rather than at the current directory. -/
def isAbsolute (path : String) : Bool := path.startsWith "/"

end SimpleLR.FileSystem
