import SimpleLR.Item.Closure
/-!
# The canonical LR(0) automaton

The states of the automaton are the item sets reachable from the closure of the augmented
start item `S' -> · S` by goto. A state is known by its item set, so an item list that has the
key of a known state is that state. States are numbered in the order they are discovered by a
worklist that takes states in number order and, for each, tries the symbols after its dots in
order of first appearance; a goto that leads to a new item set discovers a new state, with the
items as that goto produced them. The transitions of a state keep the order of its symbols, and
the edges list the transitions of state 0, then of state 1, and so on.
-/

namespace SimpleLR

/-- A state of the automaton. -/
structure State where
  items : List Item
  transitions : List (Symbol × Nat)
deriving DecidableEq, Repr

/-- An edge of the automaton: from a state, on a symbol, to a state. -/
abbrev Edge := Nat × Symbol × Nat

/-- The canonical LR(0) automaton of a grammar. -/
structure Automaton where
  states : List State
deriving DecidableEq, Repr

namespace Automaton

/-- All transitions as edges, state by state. -/
def edges (a : Automaton) : List Edge :=
  (a.states.zipIdx.map fun (s, i) => s.transitions.map fun (x, t) => (i, x, t)).flatten

/-- The state that state `s` goes to on `x`, if any. -/
def target? (a : Automaton) (s : Nat) (x : Symbol) : Option Nat :=
  (a.states[s]?.bind fun st => st.transitions.lookup x)

/-- The text of the automaton: each state's items and transitions, states apart by `---`. -/
def render (a : Automaton) : String :=
  "\n---\n".intercalate <| a.states.zipIdx.map fun (s, i) =>
    "\n".intercalate <|
      ("State " ++ toString i ++ ":") :: s.items.map (fun it => "  " ++ it.render) ++
      "Transitions:" ::
      (if s.transitions.isEmpty then ["  (none)"]
       else s.transitions.map fun (x, t) => "  on " ++ x ++ " -> " ++ toString t)

end Automaton

namespace Grammar

/-- The state number of an item set among the sets found so far, and the sets found after
looking it up: a set with a new key is appended. -/
def discover (found : List (List Item)) (items : List Item) : Nat × List (List Item) :=
  match found.findIdx? (sameItemSet · items) with
  | some n => (n, found)
  | none => (found.length, found ++ [items])

/-- The transitions of the state with items `items`, and the sets found after them. -/
def expand (g : Grammar) (items : List Item) (found : List (List Item)) :
    List (Symbol × Nat) × List (List Item) :=
  (symbolsAfterDot items).foldl (fun (ts, found) x =>
    match g.goto? items x with
    | none => (ts, found)
    | some next =>
      let (n, found) := discover found next
      (ts ++ [(x, n)], found)) ([], found)

/-- The worklist: the states from number `done.length` on are expanded, at most `fuel` of
them. `found` holds the item sets found so far and `done` the transitions of the states
expanded. -/
def explore (g : Grammar) : Nat → List (List Item) → List (List (Symbol × Nat)) →
    List (List Item) × List (List (Symbol × Nat))
  | 0, found, done => (found, done)
  | fuel + 1, found, done =>
    match found[done.length]? with
    | none => (found, done)
    | some items =>
      let (ts, found) := g.expand items found
      g.explore fuel found (done ++ [ts])

/-- The items that can stand in a state: every rule with every position of its dot. -/
def itemUniverse (g : Grammar) : List Item :=
  g.rules.flatMap fun r => (List.range (r.body.length + 1)).map fun d => ⟨r.lhs, r.rhs, d⟩

/-- The canonical LR(0) automaton. Its states are distinct sets of items of the universe, so
there are at most `2 ^ n` of them for a universe of `n` items, and the worklist ends within one
step more. -/
def automaton (g : Grammar) : Automaton :=
  let start := g.closure [Item.initial g.start [g.origin]]
  let (found, done) := g.explore (Nat.pow 2 g.itemUniverse.length + 1) [start] []
  ⟨found.zipWith (fun items ts => ⟨items, ts⟩) done⟩

end Grammar

end SimpleLR
