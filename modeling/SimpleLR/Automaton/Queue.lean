import SimpleLR.Automaton.Basic
/-!
# The automaton built by a queue

The automaton can be built by a queue that tests item sets for being known only when it takes
them out. The queue starts with the closure of the start item `S' -> · S`. A turn takes the item
set at its front: one whose key is registered is dropped; any other is registered as the next
state, and for each symbol after its dots, in order of first appearance, the goto on it is
recorded as a pending transition to the goto's key, and the goto is put at the back of the queue
unless its key is registered, even when an equal set is waiting already. When the queue is
empty, each pending transition is resolved to the number of the state registered with its key;
the transitions of a state are a table from symbols to states, each written in the order of the
pending list.
-/

namespace SimpleLR

/-- The queue of item sets and what the turns so far have registered. -/
structure Frontier where
  queue : List (List Item)
  registered : List (List Item)
  pending : List (Nat × Symbol × List Item)
deriving DecidableEq, Repr

/-- Writes `x ↦ t` into a table of transitions: an entry for `x` keeps its place and takes the
state `t`, and a new symbol goes at the end. -/
def assign (ts : List (Symbol × Nat)) (x : Symbol) (t : Nat) : List (Symbol × Nat) :=
  if ts.any (·.1 == x) then ts.map fun p => if p.1 == x then (x, t) else p else ts ++ [(x, t)]

/-- Whether an item set has the key of a registered one. -/
def isRegistered (registered : List (List Item)) (items : List Item) : Bool :=
  registered.any (sameItemSet · items)

namespace Grammar

/-- What registering state `s`, with items `items`, does for a symbol `x` after its dots: the
goto on `x` becomes a pending transition, and waits in the queue unless its key is registered. -/
def recordGoto (g : Grammar) (items : List Item) (s : Nat) (b : Frontier) (x : Symbol) :
    Frontier :=
  match g.goto? items x with
  | none => b
  | some next =>
    { b with
      queue := if isRegistered b.registered next then b.queue else b.queue ++ [next]
      pending := b.pending ++ [(s, x, itemSetKey next)] }

/-- One turn of the queue. -/
def visit (g : Grammar) (b : Frontier) : Frontier :=
  match b.queue with
  | [] => b
  | items :: rest =>
    if isRegistered b.registered items then { b with queue := rest }
    else (symbolsAfterDot items).foldl (g.recordGoto items b.registered.length)
      { b with queue := rest, registered := b.registered ++ [items] }

/-- Turns until the queue is empty, at most `fuel` of them; none if it is not empty by then. -/
def drain (g : Grammar) : Nat → Frontier → Option Frontier
  | 0, _ => none
  | fuel + 1, b => if b.queue.isEmpty then some b else g.drain fuel (g.visit b)

/-- The edges of the pending transitions, each key resolved to the first state registered with
it; none if some key was never registered. -/
def resolve (registered : List (List Item)) (pending : List (Nat × Symbol × List Item)) :
    Option (List Edge) :=
  pending.mapM fun (s, x, key) =>
    (registered.findIdx? (itemSetKey · == key)).map fun t => (s, x, t)

/-- Writes an edge into the table of transitions of state `i` if it leaves state `i`. -/
def writeEdge (i : Nat) (ts : List (Symbol × Nat)) (e : Edge) : List (Symbol × Nat) :=
  if e.1 == i then assign ts e.2.1 e.2.2 else ts

/-- The table of transitions of state `i`, written from the edges in order. -/
def transitionsOf (edges : List Edge) (i : Nat) : List (Symbol × Nat) :=
  edges.foldl (writeEdge i) []

/-- The turns that a queue is given. A turn takes one item set from the queue, and a turn that
registers a state puts back at most one item set per symbol after its dots, so at most one per
item of the universe of `n` items; the registered states have distinct keys, so there are at most
`2 ^ n` of them, and the queue is empty after at most `2 ^ n * n + 1` turns. -/
def queueFuel (g : Grammar) : Nat :=
  Nat.pow 2 g.itemUniverse.length * g.itemUniverse.length + 2

/-- The automaton and its list of edges as the queue builds them; none if the queue did not
empty within its turns or a pending transition names a key that no state has. -/
def queueAutomaton (g : Grammar) : Option (Automaton × List Edge) := do
  let b ← g.drain g.queueFuel ⟨[g.closure [Item.initial g.start [g.origin]]], [], []⟩
  let edges ← resolve b.registered b.pending
  pure (⟨b.registered.zipIdx.map fun (items, i) => ⟨items, transitionsOf edges i⟩⟩, edges)

end Grammar

end SimpleLR
