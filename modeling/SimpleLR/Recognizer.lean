import SimpleLR.Table.Basic
/-!
# The shift/reduce recognizer

A table decides a list of tokens. End markers among the tokens are dropped and one is put at
the end. The recognizer keeps a stack of states, starting with state 0, and at each step looks
up the action of the top state and the next token: a shift pushes the state and takes the token,
a reduce by rule `A -> γ` pops a state per symbol of `γ` and pushes the goto of the state below
on `A`, and accept ends the run with the rules reduced, in order. No action is a syntax error
that names the place and the tokens the state expects.

A run of reductions may come back to a stack it has seen since the last shift; it would then go
round forever, and the recognizer stops it with an error naming the rule that closed the cycle.
-/

namespace SimpleLR

/-- Why a run of the recognizer fails. -/
inductive RunError where
  | noAction (state : Nat) (token : Option (Nat × Symbol)) (expected : List Symbol)
  | reduceCycle (rule : Nat) (text : String) (state : Nat)
  | missingGoto (state : Nat) (lhs : Symbol)
  | badGoto (text : String)
  | stackUnderflow
  | emptyStack
  | unknownRule (rule : Nat)
  | inputExhausted
  | table (e : TableError)
  | outOfSteps
deriving DecidableEq, Repr

/-- The words that report a run error. -/
def RunError.message : RunError → String
  | .noAction s tok expected =>
    let place := match tok with
      | none => "EOF"
      | some (i, x) => "token " ++ toString (i + 1) ++ " " ++ Text.quote x
    "Parse error at " ++ place ++ " in state " ++ toString s ++ ": expected one of \x7b" ++
      ", ".intercalate expected ++ "\x7d"
  | .reduceCycle k text t =>
    "Reduce cycle on rule " ++ toString k ++ " (" ++ text ++ ") in state " ++ toString t
  | .missingGoto t lhs => "GOTO missing for state=" ++ toString t ++ ", lhs=" ++ lhs
  | .badGoto text => "invalid literal for int() with base 10: " ++ Text.quote text
  | .stackUnderflow => "pop from empty list"
  | .emptyStack => "list index out of range"
  | .unknownRule _ => "tuple index out of range"
  | .inputExhausted => "list index out of range"
  | .table e => e.message
  | .outOfSteps => "the run did not end"

/-- A configuration of the recognizer. -/
structure Config where
  stack : List Nat
  rest : List Symbol
  taken : Nat
  reduced : List Nat
  seen : List (List Nat)
deriving DecidableEq, Repr

/-- What one step leads to. -/
inductive Step where
  | next (c : Config)
  | accepted (rules : List Nat)
  | failed (e : RunError)
deriving DecidableEq, Repr

namespace Table

/-- The configuration at the start: state 0, and the tokens without end markers, then one. -/
def start (tokens : List Symbol) : Config :=
  ⟨[0], tokens.filter (· != endMarker) ++ [endMarker], 0, [], []⟩

/-- The step of a reduction by rule `k`, which is `r`, in configuration `c`. -/
def reduceStep (t : Table) (c : Config) (k : Nat) (r : Rule) : Step :=
  match c.stack.drop r.body.length with
  | [] => .failed (if c.stack.length = r.body.length then .emptyStack else .stackUnderflow)
  | below :: lower =>
    match t.cell below r.lhs with
    | .error e => .failed (.table e)
    | .ok .blank => .failed (.missingGoto below r.lhs)
    | .ok (.action a) => .failed (.badGoto a.text)
    | .ok (.goto g) =>
      let stack := g :: below :: lower
      if stack ∈ c.seen then .failed (.reduceCycle k r.render below)
      else .next { c with stack := stack, reduced := k :: c.reduced, seen := stack :: c.seen }

/-- One step of the recognizer with table `t` and rules `rules`. -/
def step (t : Table) (rules : List Rule) (c : Config) : Step :=
  match c.stack, c.rest with
  | [], _ => .failed .emptyStack
  | _, [] => .failed .inputExhausted
  | s :: _, look :: more =>
    match t.action s look with
    | .error e => .failed (.table e)
    | .ok none =>
      let place := if look = endMarker then none else some (c.taken, look)
      match t.expected s with
      | .ok expected => .failed (.noAction s place expected)
      | .error e => .failed (.table e)
    | .ok (some (.shift n)) =>
      .next { c with stack := n :: c.stack, rest := more, taken := c.taken + 1, seen := [] }
    | .ok (some .accept) => .accepted c.reduced.reverse
    | .ok (some (.reduce k)) =>
      match rules[k]? with
      | none => .failed (.unknownRule k)
      | some r => t.reduceStep c k r

/-- At most `fuel` steps from configuration `c`. -/
def run (t : Table) (rules : List Rule) : Nat → Config → Except RunError (List Nat)
  | 0, _ => .error .outOfSteps
  | fuel + 1, c =>
    match t.step rules c with
    | .next c' => t.run rules fuel c'
    | .accepted rs => .ok rs
    | .failed e => .error e

/-- The steps a run is given: more than any run that ends takes. Between two shifts the stacks
differ. Once a stack rises more states above its lowest point since the shift than the table has
rows, two of those states are equal with nothing below the first touched in between, and the
reductions repeat forever on a growing stack. So the stacks between two shifts are fewer than
`(rows + 1) ^ (rows + 2)` for each height that the run reaches down to, and that height grows by
at most `rows + 1` from one shift to the next. -/
def stepBudget (t : Table) (rules : List Rule) (tokens : List Symbol) : Nat :=
  let n := tokens.length + 1
  let m := t.rows.length + 1
  n * (n + m + 1) * Nat.pow m (m + 1) * (rules.length + 1) + 1

/-- The rules that a run reduces to accept the tokens, in order, or why it fails. -/
def recognize (t : Table) (rules : List Rule) (tokens : List Symbol) :
    Except RunError (List Nat) :=
  t.run rules (t.stepBudget rules tokens) (start tokens)

end Table

end SimpleLR
