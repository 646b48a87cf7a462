import SimpleLR.FileSystem.Path
/-!
# Files in a tree of directories

A file system is a tree: a file holds its text, a directory holds named entries. Opening a file
walks its path name by name from the root or from the current directory, and fails with the
first fault met on the way, in the order the walk meets them:

* a name with a NUL character cannot be passed to the system at all;
* a whole path of 4096 bytes or more is too long before any walking;
* a name after a file fails, as a file has no entries;
* `..` climbs to the parent directory, and stays at the root;
* a name longer than 255 bytes is too long for the directory it is looked up in;
* a name the directory does not hold does not exist;
* at the end of the walk a directory cannot be read as text.
-/

namespace SimpleLR.FileSystem

/-- A node of a file system: a file with its text, or a directory with its named entries. -/
inductive Node where
  | file (text : String)
  | dir (entries : List (String × Node))

/-- A file system: its root, and the names that lead from the root to the current directory. -/
structure Tree where
  root : Node
  current : List String

/-- Why a file cannot be read. -/
inductive Fault where
  | nullByte
  | nameTooLong
  | notFound
  | notADirectory
  | isADirectory
  | permissionDenied
  | undecodable
  | other (code : Nat) (words : String)
deriving DecidableEq, Repr

namespace Fault

/-- The number the system gives a fault, if it is one of the system's. -/
def code? : Fault → Option Nat
  | .nullByte | .undecodable => none
  | .nameTooLong => some 36
  | .notFound => some 2
  | .notADirectory => some 20
  | .isADirectory => some 21
  | .permissionDenied => some 13
  | .other n _ => some n

/-- The system's words for a fault. -/
def words : Fault → String
  | .nullByte => "embedded null byte"
  | .undecodable => "'utf-8' codec can't decode the text of the file"
  | .nameTooLong => "File name too long"
  | .notFound => "No such file or directory"
  | .notADirectory => "Not a directory"
  | .isADirectory => "Is a directory"
  | .permissionDenied => "Permission denied"
  | .other _ w => w

/-- The fault that the system reports by a number, with its words. -/
def ofCode (n : Nat) (words : String) : Fault :=
  match n with
  | 2 => .notFound
  | 13 => .permissionDenied
  | 20 => .notADirectory
  | 21 => .isADirectory
  | 36 => .nameTooLong
  | _ => .other n words

end Fault

/-- The longest name a directory holds, in bytes. -/
def nameLimit : Nat := 255

/-- The length, in bytes, from which a whole path is too long. -/
def pathLimit : Nat := 4096

/-- Walks the names of a path from a node, given the directories above it, nearest first. -/
def walk : List Node → Node → List String → Except Fault Node
  | _, n, [] => .ok n
  | _, .file _, _ :: _ => .error .notADirectory
  | above, .dir entries, name :: rest =>
    if name = ".." then
      match above with
      | parent :: higher => walk higher parent rest
      | [] => walk [] (.dir entries) rest
    else if name = "." then walk above (.dir entries) rest
    else if nameLimit < name.utf8ByteSize then .error .nameTooLong
    else
      match entries.lookup name with
      | some n => walk (.dir entries :: above) n rest
      | none => .error .notFound

/-- The faults of a path in normal form that show before any directory is looked at: a NUL
character, then the length of the whole path. -/
def checkName (path : String) : Except Fault Unit :=
  if path.contains '\x00' then .error .nullByte
  else if pathLimit ≤ path.utf8ByteSize then .error .nameTooLong
  else .ok ()

namespace Tree

/-- The text of the file at a path in normal form. -/
def readNormal (t : Tree) (path : String) : Except Fault String :=
  match checkName path with
  | .error e => .error e
  | .ok () =>
    let start := if isAbsolute path then [] else t.current
    match walk [] t.root (start ++ names path.toList) with
    | .ok (.file text) => .ok text
    | .ok (.dir _) => .error .isADirectory
    | .error e => .error e

/-- The text of the file at a path, after the path is put in normal form. -/
def read (t : Tree) (path : String) : Except Fault String := t.readNormal (normalize path)

end Tree

end SimpleLR.FileSystem
