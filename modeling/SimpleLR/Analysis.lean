import SimpleLR.Table.Text
import SimpleLR.Recognizer
/-!
# Analysis of a grammar

The analysis of a grammar bundles what the library derives from it: the vocabulary, the LR(0)
automaton, FIRST and FOLLOW, and the SLR(1) table. It also names each stage in a line of
progress, and orders lookahead sets for display: `ε` last, the others in column order, and
names with no column after those, by name.
-/

namespace SimpleLR

/-- What the library derives from a grammar. -/
structure Analysis where
  grammar : Grammar
  vocabulary : Vocabulary
  automaton : Automaton
  firstTable : List (Symbol × List Symbol)
  followTable : List (Symbol × List Symbol)
  table : Table

namespace Analysis

/-- FIRST of a symbol. -/
def first (an : Analysis) (x : Symbol) : List Symbol := an.grammar.firstFrom an.firstTable x

/-- FOLLOW of a symbol. -/
def follow (an : Analysis) (x : Symbol) : List Symbol :=
  (an.followTable.lookup x).getD (an.grammar.followWith an.first x)

/-- The non-terminals whose FIRST holds `ε`, in order. -/
def nullable (an : Analysis) : List Symbol :=
  an.vocabulary.nonterminals.filter fun a => (an.first a).contains epsilon

/-- The lines that report the stages of the analysis. -/
def progress (an : Analysis) : List String :=
  [ "rules ready | rules=" ++ toString an.grammar.rules.length ++ " start=" ++ an.grammar.start,
    "SymbolTable frozen | term=" ++ toString an.vocabulary.terminals.length ++ " nonterm=" ++
      toString an.vocabulary.nonterminals.length,
    "LR(0) automaton built | states=" ++ toString an.automaton.states.length ++ " edges=" ++
      toString an.automaton.edges.length,
    "SLR tables built | actions=" ++ toString an.table.actionCount ++ " gotos=" ++
      toString an.table.gotoCount ]

/-- The expected tokens of every state, in column order. -/
def expected (an : Analysis) : List (List Symbol) :=
  (List.range an.automaton.states.length).map fun (s : Nat) =>
    (an.table.expected (Int.ofNat s)).toOption.getD []

/-- Whether `a` comes strictly before `b` in display order: `ε` last, then by column, names
without a column after all columns, and by name among those. -/
def before (an : Analysis) (a b : Symbol) : Bool :=
  let cols := an.vocabulary.columns
  let pos (x : Symbol) := (cols.idxOf? x).getD cols.length
  if (a == epsilon) != (b == epsilon) then b == epsilon
  else if pos a != pos b then pos a < pos b
  else decide (a < b)

/-- A set of symbols in display order. -/
def ordered (an : Analysis) (xs : List Symbol) : List Symbol :=
  xs.mergeSort fun a b => !an.before b a

end Analysis

/-- Analyses a grammar. -/
def Grammar.analyze (g : Grammar) : Analysis :=
  let v := g.vocabulary
  let a := g.automaton
  let firstTable := g.firstTable
  let fst := g.firstFrom firstTable
  let followTable := (g.rules.map (·.lhs)).eraseDups.map fun x => (x, g.followWith fst x)
  let fol := fun x => (followTable.lookup x).getD (g.followWith fst x)
  ⟨g, v, a, firstTable, followTable, g.tableWith v a fol⟩

/-- The symbols of a list in order of code points. -/
def sortByCodePoint (xs : List Symbol) : List Symbol :=
  xs.mergeSort fun a b => !decide (b < a)

end SimpleLR
