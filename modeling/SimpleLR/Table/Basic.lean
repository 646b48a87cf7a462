import SimpleLR.Automaton.Basic
import SimpleLR.Grammar.Vocabulary
import SimpleLR.Lookahead.Sets
import SimpleLR.Table.Action
/-!
# SLR(1) parse tables

The table has a row per state of the automaton and a column per terminal, the end marker and
non-terminal. An action cell of state `s` and column `a` is found by going through the items of
`s` in order, each of which may set it:

* an item whose next symbol is the terminal `a` sets a shift to the state that `s` goes to on `a`;
* the finished augmented start item `S' -> S ·` sets accept in the end-marker column;
* any other finished item `A -> γ ·` sets a reduce by the rule `A -> γ` (its first number) in
  the columns of FOLLOW(A) and the end marker, but only over an empty cell or another reduce.

So a shift or accept always wins, and of two reduces the later item's. A goto cell of `s` and a
non-terminal `N` holds the state that `s` goes to on `N`, if any.
-/

namespace SimpleLR

/-- A cell of a parse table. -/
inductive Cell where
  | blank
  | action (a : Action)
  | goto (state : Nat)
deriving DecidableEq, Repr

namespace Cell

/-- The value of a cell: its text for actions, a number for goto. -/
def value : Cell → CellValue
  | .blank => .text ""
  | .action a => .text a.text
  | .goto n => .number n

/-- The text of a cell as a table shows it. -/
def text : Cell → String
  | .blank => ""
  | .action a => a.text
  | .goto n => toString n

/-- Whether the cell holds something. -/
def isFilled : Cell → Bool
  | .blank => false
  | _ => true

end Cell

/-- A parse table: its columns and a row of cells per state. -/
structure Table where
  columns : List Symbol
  rows : List (List Cell)
deriving DecidableEq, Repr

namespace Grammar

/-- What item `i`, of a state with transitions `ts`, makes of the action in column `a` that
held `cur`. `follow` gives FOLLOW. A completed item names its rule by looking it up by left-hand
side and alternative; the lookup never misses on the items of a grammar read from text
(`itemOf_cases`), and rule 0 stands in for a miss. -/
def actionStep (g : Grammar) (v : Vocabulary) (follow : Symbol → List Symbol)
    (ts : List (Symbol × Nat)) (a : Symbol) (cur : Option Action) (i : Item) : Option Action :=
  match i.next? with
  | some x =>
    if x = a ∧ v.isTerminal x then
      match ts.lookup x with
      | some j => some (.shift j)
      | none => cur
    else cur
  | none =>
    if i.lhs = g.start ∧ i.rhs = [g.origin] then
      if a = endMarker then some .accept else cur
    else if a ∈ follow i.lhs ∨ a = endMarker then
      match cur with
      | none | some (.reduce _) => some (.reduce ((g.ruleIndex? i.lhs i.rhs).getD 0))
      | some c => some c
    else cur

/-- The action of state `st` in column `a`: the items of the state set it in turn. -/
def actionOf (g : Grammar) (v : Vocabulary) (follow : Symbol → List Symbol) (st : State)
    (a : Symbol) : Option Action :=
  st.items.foldl (g.actionStep v follow st.transitions a) none

/-- The goto of state `st` on non-terminal `n`. -/
def gotoOf (st : State) (n : Symbol) : Option Nat := st.transitions.lookup n

/-- The row of a state. -/
def row (g : Grammar) (v : Vocabulary) (follow : Symbol → List Symbol) (st : State) :
    List Cell :=
  (v.actionColumns.map fun a => ((g.actionOf v follow st a).map Cell.action).getD .blank) ++
    v.nonterminals.map fun n => ((gotoOf st n).map Cell.goto).getD .blank

/-- The SLR(1) table of a grammar, its vocabulary and its automaton, with FOLLOW given by
`follow`. -/
def tableWith (g : Grammar) (v : Vocabulary) (a : Automaton) (follow : Symbol → List Symbol) :
    Table :=
  ⟨v.columns, a.states.map (g.row v follow)⟩

end Grammar

/-- The element at a position counted from the front, or from the back when negative (`-1` is
the last). -/
def getSigned? {α : Type} (xs : List α) (i : Int) : Option α :=
  if 0 ≤ i then xs[i.toNat]? else if xs.length + i < 0 then none else xs[(xs.length + i).toNat]?

/-- Whether a number fits in a signed 64-bit word, the range that positions are taken from. -/
def fitsWord (i : Int) : Bool := -9223372036854775808 ≤ i && i ≤ 9223372036854775807

/-- Why a question to a table has no answer. -/
inductive TableError where
  | badState
  | hugeState
  | badColumn
  | badCell (e : CellError)
deriving DecidableEq, Repr

/-- The words that report a table error. -/
def TableError.message : TableError → String
  | .badState => "tuple index out of range"
  | .hugeState => "cannot fit 'int' into an index-sized integer"
  | .badColumn => "tuple.index(x): x not in tuple"
  | .badCell e => e.message

/-- The state at a signed position of a list of states. A position that does not fit in a word
is refused before the list is looked at. -/
def stateAt {α : Type} (xs : List α) (s : Int) : Except TableError α :=
  if fitsWord s then
    match getSigned? xs s with
    | some x => .ok x
    | none => .error .badState
  else .error .hugeState

namespace Table

/-- The columns that hold actions: those up to the end marker. -/
def actionColumns (t : Table) : List Symbol :=
  t.columns.takeWhile (· != endMarker) ++ [endMarker]

/-- The row of a state, counted from the back when negative. -/
def row (t : Table) (s : Int) : Except TableError (List Cell) := stateAt t.rows s

/-- The cell of a state and a column. The state is looked up first. -/
def cell (t : Table) (s : Int) (col : Symbol) : Except TableError Cell := do
  let r ← t.row s
  match t.columns.idxOf? col with
  | some k => return r.getD k .blank
  | none => .error .badColumn

/-- The action of a state in a column: none for a column that holds no actions, whatever the
state. -/
def action (t : Table) (s : Int) (col : Symbol) : Except TableError (Option Action) := do
  if col ∈ t.actionColumns then
    let c ← t.cell s col
    match decodeCell c.value with
    | .ok a => return a
    | .error e => .error (.badCell e)
  else return none

/-- The action columns in which a state has an action, in column order. -/
def expected (t : Table) (s : Int) : Except TableError (List Symbol) := do
  let r ← t.row s
  return ((t.actionColumns.zip r).filter (·.2.isFilled)).map (·.1)

/-- The number of filled cells among the first `k` columns of the rows. -/
def countFilled (rows : List (List Cell)) (k : Nat) : Nat :=
  (rows.map fun r => ((r.take k).filter Cell.isFilled).length).foldl (· + ·) 0

/-- The number of actions in the table. -/
def actionCount (t : Table) : Nat := countFilled t.rows t.actionColumns.length

/-- The number of gotos in the table. -/
def gotoCount (t : Table) : Nat :=
  countFilled (t.rows.map (·.drop t.actionColumns.length)) t.columns.length

end Table

/-- The state that state `s` of the automaton goes to on `x`; the state is counted from the
back when negative. -/
def Automaton.targetSigned (a : Automaton) (s : Int) (x : Symbol) :
    Except TableError (Option Nat) :=
  (stateAt a.states s).map (·.transitions.lookup x)

end SimpleLR
