import SimpleLR.Analysis
import SimpleLR.Json
/-!
# The analysis as a JSON document

The document of an analysis holds, in this order: the start symbol, the augmented start, the
rules with their numbers, the terminals, the non-terminals, FIRST and FOLLOW of each
non-terminal in display order, the states with their items and transitions, the edges, and the
table with its columns and rows. A goto cell is a number, an action cell its text.
-/

namespace SimpleLR

open JsonValue

/-- A cell as a document: the text of an action, or the number of a goto. -/
def Cell.toJson : Cell → JsonValue
  | .goto n => nat n
  | c => .str c.text

/-- An item as a document. -/
def Item.toJson (i : Item) : JsonValue :=
  .obj [("lhs", .str i.lhs), ("rhs", strings i.rhs), ("dot", nat i.dot)]

/-- A state, numbered `n`, as a document. -/
def State.toJson (st : State) (n : Nat) : JsonValue :=
  .obj [("id", nat n), ("items", .arr (st.items.map Item.toJson)),
    ("transitions", .obj (st.transitions.map fun (x, t) => (x, nat t)))]

/-- A table as a document. -/
def Table.toJson (t : Table) : JsonValue :=
  .obj [("columns", strings t.columns), ("rows", .arr (t.rows.map fun r => .arr (r.map Cell.toJson)))]

namespace Analysis

/-- Sets of symbols for each non-terminal, in display order. -/
def setsOf (an : Analysis) (f : Symbol → List Symbol) : JsonValue :=
  .obj (an.vocabulary.nonterminals.map fun x => (x, strings (an.ordered (f x))))

/-- The document of an analysis. -/
def toJson (an : Analysis) : JsonValue :=
  let g := an.grammar
  .obj [
    ("start", .str g.origin),
    ("augmented_start", .str g.start),
    ("rules", .arr (g.rules.zipIdx.map fun (r, i) =>
      .obj [("index", nat i), ("lhs", .str r.lhs), ("rhs", strings r.rhs),
        ("augmented", .bool r.augmented)])),
    ("terminals", strings an.vocabulary.terminals),
    ("non_terminals", strings an.vocabulary.nonterminals),
    ("first", an.setsOf an.first),
    ("follow", an.setsOf an.follow),
    ("states", .arr (an.automaton.states.zipIdx.map fun (st, i) => st.toJson i)),
    ("edges", .arr (an.automaton.edges.map fun (a, x, b) => .arr [nat a, .str x, nat b])),
    ("table", an.table.toJson)]

end Analysis

end SimpleLR
