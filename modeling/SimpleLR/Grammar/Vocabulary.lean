import SimpleLR.Grammar.Basic
import SimpleLR.Text.Quoted
/-!
# Terminals and non-terminals

A grammar's non-terminals are the left-hand sides of its rules, and its terminals the other
symbols of its alternatives, `ε` apart; both in order of first appearance. The augmented start
is in neither list, but counts as a non-terminal. The columns of a table are the terminals, then
the end marker, then the non-terminals.
-/

namespace SimpleLR

/-- The terminals and non-terminals of a grammar, in order of first appearance. -/
structure Vocabulary where
  terminals : List Symbol
  nonterminals : List Symbol
  start : Symbol
deriving DecidableEq, Repr

namespace Vocabulary

/-- Whether a symbol is a terminal. The end marker is not one. -/
def isTerminal (v : Vocabulary) (x : Symbol) : Bool := v.terminals.contains x

/-- Whether a symbol is a non-terminal; the augmented start is one. -/
def isNonterminal (v : Vocabulary) (x : Symbol) : Bool := x == v.start || v.nonterminals.contains x

/-- The columns of a table: terminals, the end marker, non-terminals. -/
def columns (v : Vocabulary) : List Symbol := v.terminals ++ endMarker :: v.nonterminals

/-- The columns that hold actions: the terminals and the end marker. -/
def actionColumns (v : Vocabulary) : List Symbol := v.terminals ++ [endMarker]

/-- The column of a symbol. -/
def columnOf? (v : Vocabulary) (x : Symbol) : Option Nat := v.columns.idxOf? x

/-- The message when a symbol has no column. -/
def noColumnMessage (x : Symbol) : String := Text.quote x ++ " is not in list"

/-- A list of names in brackets, each quoted, separated by commas. -/
def quotedList (xs : List Symbol) : String :=
  "[" ++ ", ".intercalate (xs.map Text.quote) ++ "]"

/-- The text of a vocabulary: both lists quoted, the start as it is. -/
def render (v : Vocabulary) : String :=
  "SymbolTable(terms=" ++ quotedList v.terminals ++ ", nonterms=" ++ quotedList v.nonterminals ++
    ", start=" ++ v.start ++ ")"

end Vocabulary

/-- The vocabulary of a grammar. -/
def Grammar.vocabulary (g : Grammar) : Vocabulary :=
  let defined := (g.rules.map (·.lhs)).eraseDups
  let used := (g.rules.flatMap (·.rhs)).filter fun x => !defined.contains x && x != epsilon
  { terminals := used.eraseDups.filter (· != g.start)
    nonterminals := defined.filter (· != g.start)
    start := g.start }

example : let v := (Grammar.mk "E" "E'" [⟨"E", ["E", "+", "id"], some 1⟩,
    ⟨"E", [epsilon], some 1⟩]).vocabulary
    v.columns = ["+", "id", "$", "E"] ∧ v.isNonterminal "E'" ∧ !v.isTerminal "$" := by
  decide +kernel

end SimpleLR
