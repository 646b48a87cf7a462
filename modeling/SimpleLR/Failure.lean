import SimpleLR.Grammar.Reader
import SimpleLR.Recognizer
import SimpleLR.FileSystem.Tree
import SimpleLR.Text.Quoted
/-!
# Kinds of failure

Every failure of the library belongs to a kind, which the command line and the answers name.
Reading a blank text is an empty-input error and a faulty line a grammar syntax error; a run
that meets no action is a syntax error; a reduce cycle is a runtime error; questions about
cells and columns fail with value errors, and questions about states with index errors. A
grammar file that cannot be read fails with the kind of its fault, and a file name with a NUL
character is a value error. The command line reports syntax errors and value or file errors,
and lets the others through.
-/

namespace SimpleLR

/-- The kinds of failure. -/
inductive ErrorKind where
  | emptyInput
  | grammarSyntax
  | rejected
  | value
  | index
  | runtime
  | attribute
  | fileNotFound
  | notADirectory
  | isADirectory
  | permission
  | undecodable
  | system
deriving DecidableEq, Repr

namespace ErrorKind

/-- The name of a kind. -/
def name : ErrorKind → String
  | .emptyInput => "EmptyInputError"
  | .grammarSyntax => "GrammarSyntaxError"
  | .rejected => "SyntaxError"
  | .value => "ValueError"
  | .index => "IndexError"
  | .runtime => "RuntimeError"
  | .attribute => "AttributeError"
  | .fileNotFound => "FileNotFoundError"
  | .notADirectory => "NotADirectoryError"
  | .isADirectory => "IsADirectoryError"
  | .permission => "PermissionError"
  | .undecodable => "UnicodeDecodeError"
  | .system => "OSError"

/-- Whether the kind is a syntax error, of a grammar line or of a run. -/
def isSyntax : ErrorKind → Bool
  | .grammarSyntax | .rejected => true
  | _ => false

/-- Whether the kind is a value error or a file error; an empty input and a text that is not
UTF-8 are value errors. -/
def isValueOrFile : ErrorKind → Bool
  | .emptyInput | .value | .undecodable | .fileNotFound | .notADirectory | .isADirectory
    | .permission | .system => true
  | _ => false

end ErrorKind

/-- The kind of a read error. -/
def ReadError.kind : ReadError → ErrorKind
  | .empty => .emptyInput
  | .badLine .. => .grammarSyntax

/-- The kind of a cell error. -/
def CellError.kind (_ : CellError) : ErrorKind := .value

/-- The kind of a table error. -/
def TableError.kind : TableError → ErrorKind
  | .badState | .hugeState => .index
  | _ => .value

/-- The kind of a fault met in reading a file. -/
def FileSystem.Fault.kind : FileSystem.Fault → ErrorKind
  | .nullByte => .value
  | .nameTooLong | .other .. => .system
  | .notFound => .fileNotFound
  | .notADirectory => .notADirectory
  | .isADirectory => .isADirectory
  | .permissionDenied => .permission
  | .undecodable => .undecodable

/-- The words that report a fault met in reading the file at `path`: the system's number and
words for the fault and the quoted path, or the words alone for a fault that is not the
system's. -/
def FileSystem.Fault.message (f : FileSystem.Fault) (path : String) : String :=
  match f.code? with
  | some n => "[Errno " ++ toString n ++ "] " ++ f.words ++ ": " ++ Text.quote path
  | none => f.words

/-- The kind of a run error. -/
def RunError.kind : RunError → ErrorKind
  | .noAction .. => .rejected
  | .reduceCycle .. | .missingGoto .. | .outOfSteps => .runtime
  | .badGoto _ => .value
  | .stackUnderflow | .emptyStack | .unknownRule _ | .inputExhausted => .index
  | .table e => e.kind

end SimpleLR
