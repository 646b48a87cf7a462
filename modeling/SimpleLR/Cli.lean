import SimpleLR.Analysis.Document
import SimpleLR.Failure
import SimpleLR.Text.Digit
/-!
# The command line

An invocation names a command, a grammar file (`-` for standard input) and options: `-D` or
`--debug` for the stages of the analysis and more on standard error, `--json` for the table
command to print the whole analysis as JSON, and `--text` with the tokens for the parse command.
A long option may be shortened to any prefix that names only it, and its value may follow it
after `=` or as the next argument. A value `--` after `=` is taken for the end-of-options
marker and dropped, so `--text=--` leaves the parse command with no token text at all, and the
command stops once the grammar is analysed. The commands:

* `check` reports the sizes of the analysis;
* `states` prints the automaton;
* `table` prints the table, or with `--json` the analysis document;
* `first-follow` prints the nullable non-terminals, then FIRST and FOLLOW of each;
* `parse` splits the text at blanks and runs the recognizer on the tokens.

An argument that starts with `-` is an option unless it reads as a negative number: a minus,
decimal digits of any script, at most one point followed by digits, and at most one line feed at
the end. The file is read from standard input when it is exactly `-`; any other name is put in
normal form first, and the grammar file is then the file of that name.

A faulty grammar line is reported as a syntax error, an empty grammar or a file that cannot be
read as an error of its kind, both with status 2; a rejected token list with status 1. Other
failures of a run are not reported by the command line and end it.
-/

namespace SimpleLR

/-- The commands. -/
inductive Command where
  | check
  | states
  | table
  | firstFollow
  | parse
deriving DecidableEq, Repr

namespace Command

/-- The command of a name. -/
def ofName? : String → Option Command
  | "check" => some .check
  | "states" => some .states
  | "table" => some .table
  | "first-follow" => some .firstFollow
  | "parse" => some .parse
  | _ => none

/-- The long options of a command. -/
def longOptions : Command → List String
  | .table => ["--help", "--debug", "--json"]
  | .parse => ["--help", "--debug", "--text"]
  | _ => ["--help", "--debug"]

end Command

/-- The token text of the parse command. -/
inductive TokenText where
  | given (s : String)
  | dropped
deriving DecidableEq, Repr

/-- A command with its file and options. -/
structure Invocation where
  command : Command
  file : String
  debug : Bool
  json : Bool
  text : Option TokenText
deriving DecidableEq, Repr

/-- What an invocation prints and the status it ends with. -/
structure Outcome where
  code : Nat
  stdout : String
  stderr : String
deriving DecidableEq, Repr

namespace Invocation

/-- Options read so far. -/
structure Options where
  positional : List String
  debug : Bool
  json : Bool
  text : Option TokenText

/-- Whether an argument reads as a negative number, which is a value and not an option: a minus,
then decimal digits, or digits, a point and at least one digit; one line feed may end it. -/
def isNegativeNumber (arg : String) : Bool :=
  match arg.toList with
  | '-' :: rest =>
    let body := if rest.getLast? = some '\n' then rest.dropLast else rest
    let (whole, frac) := (body.takeWhile Text.isDecimalDigit, body.dropWhile Text.isDecimalDigit)
    match frac with
    | [] => !whole.isEmpty
    | '.' :: ds => !ds.isEmpty && ds.all Text.isDecimalDigit
    | _ => false
  | _ => false

example : isNegativeNumber "-5" ∧ isNegativeNumber "-٣.٥" ∧ isNegativeNumber "-.٥" ∧
    isNegativeNumber "-5\n" ∧ !isNegativeNumber "-5\n\n" ∧ !isNegativeNumber "-²" ∧
    !isNegativeNumber "-5." ∧ !isNegativeNumber "-" := by
  decide +kernel

/-- The long options of `longs` that an argument names, exactly or by a prefix, with the value
after `=` if any. -/
def matchLong (longs : List String) (arg : String) : List String × Option String :=
  let (name, value) := match arg.splitOn "=" with
    | [n] => (n, none)
    | n :: rest => (n, some ("=".intercalate rest))
    | [] => (arg, none)
  if name ∈ longs then ([name], value)
  else (longs.filter fun o => o.startsWith name, value)

/-- Whether an argument is taken for an option rather than a value. -/
def isOptionLike (longs : List String) (arg : String) : Bool :=
  if !arg.startsWith "-" || arg = "-" then false
  else if arg = "-D" || arg = "-h" then true
  else if arg.startsWith "--" && !(matchLong longs arg).1.isEmpty then true
  else if isNegativeNumber arg then false
  else if arg.contains ' ' then false
  else true

/-- Reads the arguments after the command name. -/
def readOptions (longs : List String) : List String → Options → Except String Options
  | [], o => .ok o
  | "--" :: rest, o => .ok { o with positional := o.positional ++ rest }
  | arg :: rest, o =>
    if !isOptionLike longs arg then readOptions longs rest { o with positional := o.positional ++ [arg] }
    else if arg.startsWith "--" then
      match matchLong longs arg with
      | (["--debug"], none) => readOptions longs rest { o with debug := true }
      | (["--json"], none) => readOptions longs rest { o with json := true }
      | (["--text"], some v) =>
        let t := if v = "--" then TokenText.dropped else .given v
        readOptions longs rest { o with text := some t }
      | (["--text"], none) =>
        match rest with
        | v :: rest' =>
          if isOptionLike longs v then .error "argument --text: expected one argument"
          else readOptions longs rest' { o with text := some (.given v) }
        | [] => .error "argument --text: expected one argument"
      | _ => .error ("unrecognized arguments: " ++ arg)
    else if arg.length ≥ 2 && (arg.toList.drop 1).all (· = 'D') then
      readOptions longs rest { o with debug := true }
    else .error ("unrecognized arguments: " ++ arg)

/-- Reads an invocation from the arguments. -/
def ofArgs (args : List String) : Except String Invocation :=
  match args with
  | [] => .error "the following arguments are required: cmd"
  | name :: rest =>
    match Command.ofName? name with
    | none => .error ("argument cmd: invalid choice: " ++ Text.quote name)
    | some c => do
      let o ← readOptions c.longOptions rest ⟨[], false, false, none⟩
      match o.positional with
      | [] => .error "the following arguments are required: file"
      | [file] =>
        if c = .parse && o.text.isNone then
          .error "the following arguments are required: --text"
        else .ok ⟨c, file, o.debug, o.json, o.text⟩
      | _ :: extra => .error ("unrecognized arguments: " ++ " ".intercalate extra)

end Invocation

/-- Lines joined, each ended by a line feed. -/
def linesOf (ls : List String) : String := String.join (ls.map (· ++ "\n"))

/-- A set of names between braces, in order of code points. -/
def setText (xs : List Symbol) : String :=
  "\x7b" ++ ", ".intercalate (sortByCodePoint xs) ++ "\x7d"

/-- A text padded on the left with spaces to `width` characters. -/
def padLeft (width : Nat) (s : String) : String :=
  String.ofList (List.replicate (width - s.length) ' ') ++ s

namespace Analysis

/-- The report of the check command: the sizes, and with debugging the rules and the items of
state 0 on standard error. -/
def checkReport (an : Analysis) (debug : Bool) : Outcome :=
  let sizes := "[CHECK OK] states=" ++ toString an.automaton.states.length ++ " rules=" ++
    toString an.grammar.rules.length ++ " terminals=" ++
    toString an.vocabulary.terminals.length ++ " non_terminals=" ++
    toString an.vocabulary.nonterminals.length
  let more := if debug then
      linesOf ("\n[Rules]" :: an.grammar.rules.zipIdx.map (fun (r, i) =>
        "  r" ++ toString i ++ ": " ++ r.render)) ++
      linesOf ("\n[State 0 items]" :: ((an.automaton.states.head?.map (·.items)).getD []).map
        (fun it => "  " ++ it.render))
    else ""
  ⟨0, linesOf [sizes], more⟩

/-- The report of the first-follow command. -/
def lookaheadReport (an : Analysis) : String :=
  let nts := an.vocabulary.nonterminals
  let nullable := an.nullable
  let line (f : Symbol → List Symbol) (a : Symbol) := padLeft 10 a ++ " : " ++ setText (f a)
  linesOf (["[NULLABLE]", if nullable.isEmpty then "(none)" else ", ".intercalate nullable,
    "\n[FIRST(nonterminals)]"] ++ nts.map (line an.first) ++
    ["\n[FOLLOW(nonterminals)]"] ++ nts.map (line an.follow))

/-- The report of the parse command on a token text, or the failure that ends it. -/
def parseReport (an : Analysis) (text : String) : Except RunError Outcome :=
  let tokens := (Text.words text.toList).map String.ofList
  match an.table.recognize an.grammar.rules tokens with
  | .ok rs =>
    .ok ⟨0, linesOf ("[ACCEPT]" :: rs.map fun k =>
      "  r" ++ toString k ++ ": " ++ ((an.grammar.rules[k]?.map Rule.render).getD "")), ""⟩
  | .error e =>
    if e.kind = .rejected then .ok ⟨1, "", linesOf ["[REJECT]", e.message]⟩
    else if e.kind.isValueOrFile then
      .ok ⟨2, "", linesOf ["[ERROR] " ++ e.kind.name ++ " " ++ e.message]⟩
    else .error e

end Analysis

/-- Why a command stops without a report of its own. -/
inductive Halt where
  | run (e : RunError)
  | noTokenText
deriving DecidableEq, Repr

namespace Halt

/-- The kind of a halt. -/
def kind : Halt → ErrorKind
  | .run e => e.kind
  | .noTokenText => .attribute

/-- The words that report a halt. -/
def message : Halt → String
  | .run e => e.message
  | .noTokenText => "'list' object has no attribute 'split'"

end Halt

namespace Invocation

/-- Whether the grammar text is read from standard input. -/
def readsStandardInput (inv : Invocation) : Bool := inv.file = "-"

/-- The name of the grammar file in normal form. -/
def path (inv : Invocation) : String := FileSystem.normalize inv.file

/-- The grammar text of an invocation: standard input, or the file it names in `files`. -/
def source (inv : Invocation) (stdin : String) (files : FileSystem.Tree) :
    Except FileSystem.Fault String :=
  if inv.readsStandardInput then .ok stdin else files.readNormal inv.path

/-- Runs an invocation on the grammar text it names: `source` is the text, or the fault met in
reading the file. A failure that the command line does not report is the error. -/
def execute (inv : Invocation) (source : Except FileSystem.Fault String) :
    Except Halt Outcome :=
  match source with
  | .error f =>
    .ok ⟨2, "", linesOf ["[ERROR] " ++ f.kind.name ++ " " ++ f.message inv.path]⟩
  | .ok text =>
    match Grammar.read text with
    | .error e =>
      if e.kind.isSyntax then .ok ⟨2, "", linesOf ["[SYNTAX ERROR]", e.message]⟩
      else .ok ⟨2, "", linesOf ["[ERROR] " ++ e.kind.name ++ " " ++ e.message]⟩
    | .ok g =>
      let an := g.analyze
      let stages := if inv.debug then linesOf (an.progress.map ("[DEBUG] " ++ ·)) else ""
      let withStages (o : Outcome) : Outcome := { o with stderr := stages ++ o.stderr }
      match inv.command with
      | .check => .ok (withStages (an.checkReport inv.debug))
      | .states => .ok (withStages ⟨0, linesOf [an.automaton.render], ""⟩)
      | .table =>
        let shown := if inv.json then an.toJson.render else an.table.render
        .ok (withStages ⟨0, linesOf [shown], ""⟩)
      | .firstFollow => .ok (withStages ⟨0, an.lookaheadReport, ""⟩)
      | .parse =>
        match inv.text.getD (.given "") with
        | .given s => (withStages <$> an.parseReport s).mapError .run
        | .dropped => .error .noTokenText

end Invocation

/-- The outcome of a call with arguments that cannot be read. -/
def usageOutcome (msg : String) : Outcome :=
  ⟨2, "", linesOf ["error: " ++ msg]⟩

end SimpleLR
