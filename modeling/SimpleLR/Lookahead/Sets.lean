import SimpleLR.Grammar.Basic
import SimpleLR.Lookahead.Reach
/-!
# FIRST and FOLLOW

The lookahead sets of this library follow two rules of its own. FIRST looks only at the first
symbol of each alternative: a symbol that the text does not define (a terminal, the augmented
start, an unknown name, `ε`) is its own FIRST; a defined symbol has `ε` when one of its
alternatives is empty, and the FIRST of the first symbol of each other alternative. A nullable
first symbol does not let the next symbol in.

FOLLOW scans every rule, the augmented start rule too. The augmented start is followed by the
end marker. Where `A` stands in `B -> α A β`, FOLLOW(A) takes FIRST of the symbol right after
`A`, without `ε`; and when `A` is last, or that FIRST has `ε`, it takes FOLLOW(B) as well,
unless `B` is `A` itself.

Both are least solutions of their equations, so each is the union of the direct parts of the
symbols reachable along the edges that the equations name: for FIRST from a symbol to the first
symbols of its alternatives, for FOLLOW from `A` to the `B` whose FOLLOW it takes.
-/

namespace SimpleLR

/-- Each symbol of a list with the symbol after it, if any. -/
def withNext : List Symbol → List (Symbol × Option Symbol)
  | [] => []
  | [x] => [(x, none)]
  | x :: y :: rest => (x, some y) :: withNext (y :: rest)

namespace Grammar

/-- The symbols that the rules mention, each once. -/
def mentioned (g : Grammar) : List Symbol :=
  (g.rules.flatMap fun r => r.lhs :: r.rhs).eraseDups

/-- The first symbols of a symbol's alternatives that are not empty. -/
def firstEdges (g : Grammar) (x : Symbol) : List Symbol :=
  (g.alternatives x).filterMap fun rhs => if rhs = [epsilon] then none else rhs.head?

/-- Whether a symbol has the empty alternative. -/
def hasEmpty (g : Grammar) (x : Symbol) : Bool := (g.alternatives x).contains [epsilon]

/-- The symbols reachable from `x` by first-symbol edges. -/
def firstReach (g : Grammar) (x : Symbol) : List Symbol :=
  reach g.firstEdges (x :: g.mentioned).eraseDups [x]

/-- FIRST of a symbol: the undefined symbols reachable by first-symbol edges, and `ε` when a
reachable symbol has the empty alternative. -/
def first (g : Grammar) (x : Symbol) : List Symbol :=
  let r := g.firstReach x
  (r.filter (!g.defines ·) ++ if r.any g.hasEmpty then [epsilon] else []).eraseDups

/-- The places where `b` stands in the rules: the rule's left-hand side and the symbol after
`b`, if any. -/
def occurrences (g : Grammar) (b : Symbol) : List (Symbol × Option Symbol) :=
  g.rules.flatMap fun r => ((withNext r.rhs).filter (·.1 == b)).map fun (_, y) => (r.lhs, y)

/-- The symbols whose FOLLOW the FOLLOW of `b` takes, with FIRST given by `fst`. -/
def followEdgesWith (g : Grammar) (fst : Symbol → List Symbol) (b : Symbol) : List Symbol :=
  (g.occurrences b).filterMap fun (lhs, y) =>
    if lhs = b then none
    else
      match y with
      | none => some lhs
      | some y => if epsilon ∈ fst y then some lhs else none

/-- The part of FOLLOW(b) that needs no other FOLLOW, with FIRST given by `fst`. -/
def followDirectWith (g : Grammar) (fst : Symbol → List Symbol) (b : Symbol) : List Symbol :=
  (if b = g.start then [endMarker] else []) ++
    (g.occurrences b).flatMap fun (_, y) => match y with
      | none => []
      | some y => (fst y).filter (· != epsilon)

/-- FOLLOW with FIRST given by `fst`: the direct parts of all symbols reachable by FOLLOW
edges. -/
def followWith (g : Grammar) (fst : Symbol → List Symbol) (a : Symbol) : List Symbol :=
  let r := reach (g.followEdgesWith fst) (a :: g.rules.map (·.lhs)).eraseDups [a]
  (r.flatMap (g.followDirectWith fst)).eraseDups

/-- FOLLOW of a symbol. -/
def follow (g : Grammar) (a : Symbol) : List Symbol := g.followWith g.first a

/-- FIRST of every symbol the rules mention, computed once. -/
def firstTable (g : Grammar) : List (Symbol × List Symbol) :=
  g.mentioned.map fun x => (x, g.first x)

/-- FIRST read from a table, computed for a symbol that the table lacks. -/
def firstFrom (g : Grammar) (table : List (Symbol × List Symbol)) (x : Symbol) : List Symbol :=
  (table.lookup x).getD (g.first x)

theorem firstFrom_firstTable (g : Grammar) (x : Symbol) :
    g.firstFrom g.firstTable x = g.first x := by
  unfold firstFrom firstTable
  induction g.mentioned with
  | nil => rfl
  | cons y ys ih =>
    by_cases h : x = y
    · subst h; simp
    · have hb : (x == y) = false := by simp [h]
      simpa [List.lookup_cons, hb] using ih

end Grammar

end SimpleLR
