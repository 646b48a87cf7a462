import SimpleLR.Grammar.Basic
import SimpleLR.Grammar.Token
/-!
# Reading a grammar

A grammar text holds one rule per line, `A -> x y | z | ε`. Leading byte-order marks are
ignored, carriage returns end lines as line feeds do, and blank lines are skipped. An empty
alternative, such as the one after the bar in `A -> x |`, is the empty alternative `[ε]`.

A text that is blank is refused as empty. Otherwise the first line with a fault is reported,
with its number, the column of the fault and the line itself under a caret. The faults of a
line are looked for in this order: no arrow, a second arrow, nothing before the arrow, more or
other than one name before it, `ε` before it, a `$` anywhere, `ε` beside other symbols in one
alternative.
-/

namespace SimpleLR

open SimpleLR.Text

/-- What can be wrong with a rule line. -/
inductive LineFault where
  | missingArrow
  | extraArrow
  | missingLhs
  | lhsNotSingle
  | epsilonLhs
  | reservedEnd
  | epsilonNotAlone
deriving DecidableEq, Repr

/-- The words that report a fault. -/
def LineFault.message : LineFault → String
  | .missingArrow => "Missing '->' in rule"
  | .extraArrow => "More than one '->' in rule"
  | .missingLhs => "Missing left-hand side before '->'"
  | .lhsNotSingle => "Left-hand side must be a single symbol"
  | .epsilonLhs => "'ε' cannot be a left-hand side"
  | .reservedEnd => "'$' is reserved for the end marker"
  | .epsilonNotAlone => "'ε' must stand alone in an alternative"

/-- Why a grammar text cannot be read. -/
inductive ReadError where
  | empty
  | badLine (fault : LineFault) (line : Nat) (text : String) (column : Nat)
deriving DecidableEq, Repr

/-- The report of a read error. A fault names its place as `line:column`, then shows the line
and, under it, a caret at the column. -/
def ReadError.message : ReadError → String
  | .empty => "Input cannot be empty."
  | .badLine fault line text column =>
    fault.message ++ " at " ++ toString line ++ ":" ++ toString column ++ "\n" ++ text ++ "\n" ++
      String.ofList (List.replicate (column - 1) ' ') ++ "^"

/-- A rule line as read: its left-hand side and its alternatives. -/
structure RuleLine where
  lhs : Symbol
  alternatives : List (List Symbol)
deriving DecidableEq, Repr

namespace RuleLine

/-- An alternative from the tokens between two bars; the column of the first `ε` when `ε`
stands beside other symbols. -/
def alternative (ts : List Token) : Except Nat (List Symbol) :=
  let names := ts.map (·.text)
  if names = [] ∨ names = [epsilon] then .ok [epsilon]
  else
    match ts.find? (·.text == epsilon) with
    | some t => .error t.column
    | none => .ok names

/-- The alternatives of a list of groups, or the column of the first `ε` not standing alone. -/
def alternativesOf : List (List Token) → Except Nat (List (List Symbol))
  | [] => .ok []
  | g :: gs => do
    let a ← alternative g
    let as ← alternativesOf gs
    return a :: as

/-- The left-hand side of the tokens before the arrow at column `arrowAt`. -/
def leftSide (before : List Token) (arrowAt : Nat) : Except (LineFault × Nat) Symbol :=
  match before with
  | [] => .error (.missingLhs, arrowAt)
  | [t] =>
    if t.kind ≠ .name then .error (.lhsNotSingle, t.column)
    else if t.text = epsilon then .error (.epsilonLhs, t.column)
    else .ok t.text
  | _ :: t :: _ => .error (.lhsNotSingle, t.column)

/-- Reads one line that is not blank: its rule, or its first fault and the fault's column. -/
def read (line : List Char) : Except (LineFault × Nat) RuleLine :=
  let toks := Token.scan line
  match toks.filter (·.kind = .arrow) with
  | [] => .error (.missingArrow, (trimRight line).length + 1)
  | _ :: second :: _ => .error (.extraArrow, second.column)
  | [arrow] => do
    let lhs ← leftSide (toks.takeWhile (·.kind ≠ .arrow)) arrow.column
    match toks.find? (·.text == endMarker) with
    | some t => .error (.reservedEnd, t.column)
    | none =>
      match alternativesOf (Token.groups ((toks.dropWhile (·.kind ≠ .arrow)).drop 1)) with
      | .error col => .error (.epsilonNotAlone, col)
      | .ok alts => return ⟨lhs, alts⟩

end RuleLine

/-- The text with every carriage return made a line feed, and a carriage return followed by a
line feed made one line feed. -/
def unifyNewlines : List Char → List Char
  | [] => []
  | '\r' :: '\n' :: rest => '\n' :: unifyNewlines rest
  | c :: rest => (if c = '\r' then '\n' else c) :: unifyNewlines rest

/-- The lines of a text: the pieces between line feeds. There is always one more line than
there are line feeds. -/
def splitLines : List Char → List (List Char)
  | [] => [[]]
  | c :: cs =>
    if c = '\n' then [] :: splitLines cs
    else
      match splitLines cs with
      | l :: ls => (c :: l) :: ls
      | [] => [[c]]

/-- The text without its leading byte-order marks. -/
def dropByteOrderMarks (cs : List Char) : List Char := cs.dropWhile (· = '\uFEFF')

/-- Reads the lines from number `n` on, skipping blank ones: each rule line with its number. -/
def readLines : List (List Char) → Nat → Except ReadError (List (Nat × RuleLine))
  | [], _ => .ok []
  | l :: ls, n =>
    if isBlankText l then readLines ls (n + 1)
    else
      match RuleLine.read l with
      | .error (fault, col) => .error (.badLine fault n (String.ofList l) col)
      | .ok r => do
        let rs ← readLines ls (n + 1)
        return (n, r) :: rs

/-- The first of `base'`, `base''`, … that is not taken, trying at most `fuel` of them. -/
def freshFrom (taken : List Symbol) (base : Symbol) : Nat → Symbol
  | 0 => base
  | fuel + 1 =>
    let name := base ++ "'"
    if name ∈ taken then freshFrom taken name fuel else name

/-- The name of the augmented start: the start symbol with primes added until it is a name
that the text does not use. There are fewer taken names than tries, so one is free. -/
def freshStart (taken : List Symbol) (start : Symbol) : Symbol :=
  freshFrom taken start (taken.length + 1)

/-- The grammar of read rule lines. -/
def Grammar.ofLines (first : RuleLine) (lines : List (Nat × RuleLine)) : Grammar :=
  let taken := lines.flatMap fun (_, r) => r.lhs :: r.alternatives.flatten
  { origin := first.lhs
    start := freshStart taken first.lhs
    productions := lines.flatMap fun (n, r) => r.alternatives.map fun a => ⟨r.lhs, a, some n⟩ }

/-- Reads a grammar text. -/
def Grammar.read (text : String) : Except ReadError Grammar :=
  let cs := dropByteOrderMarks text.toList
  if isBlankText cs then .error .empty
  else do
    let lines ← readLines (splitLines (unifyNewlines cs)) 1
    match lines with
    | [] => .error .empty
    | (n, r) :: rest => return Grammar.ofLines r ((n, r) :: rest)

example : (Grammar.read "E -> E + T | T\nT -> id").toOption.map (·.start) = some "E'" := by
  decide +kernel

example : (match Grammar.read "\n  x y -> z" with | .error e => e.message | .ok _ => "") =
    "Left-hand side must be a single symbol at 2:5\n  x y -> z\n    ^" := by
  decide +kernel

end SimpleLR
