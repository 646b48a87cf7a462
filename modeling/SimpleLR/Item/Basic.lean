import SimpleLR.Grammar.Basic
/-!
# LR(0) items

An item `A -> α · β` is a rule with a dot in its body: the part before the dot has been seen.
Items are compared as written, with the alternative as given (`[ε]` for the empty one), and
the dot counts symbols of the body, where the empty alternative has none.

An item set is known by its key: its items without repeats, in increasing order of
left-hand side, then alternative, then dot, names compared by code point. Two lists of items
have the same key exactly when they hold the same items.
-/

namespace SimpleLR

/-- An LR(0) item: a rule and a position in its body. -/
structure Item where
  lhs : Symbol
  rhs : List Symbol
  dot : Nat
deriving DecidableEq, Repr

namespace Item

/-- The item of a rule with the dot in front. -/
def initial (lhs : Symbol) (rhs : List Symbol) : Item := ⟨lhs, rhs, 0⟩

/-- The symbols of the body. -/
def body (i : Item) : List Symbol := bodyOf i.rhs

/-- The symbol right after the dot, if the dot is not at the end. -/
def next? (i : Item) : Option Symbol := i.body[i.dot]?

/-- Whether the dot stands at the end of the body. -/
def atEnd (i : Item) : Bool := i.body.length ≤ i.dot

/-- The item with the dot moved over one symbol. -/
def advance (i : Item) : Item := { i with dot := i.dot + 1 }

/-- The text of an item: the body with `·` at the dot, as `A -> a · B c`. -/
def render (i : Item) : String :=
  i.lhs ++ " -> " ++ " ".intercalate (i.body.take i.dot ++ "·" :: i.body.drop i.dot)

/-- Items in order: by left-hand side, then alternative, then dot. -/
def lt (a b : Item) : Bool :=
  decide (a.lhs < b.lhs) || (a.lhs == b.lhs &&
    (decide (a.rhs < b.rhs) || (a.rhs == b.rhs && decide (a.dot < b.dot))))

theorem next?_isSome_iff (i : Item) : i.next?.isSome ↔ i.atEnd = false := by
  simp [next?, atEnd]

example : (Item.mk "A" ["a", "B"] 1).render = "A -> a · B" ∧
    (Item.mk "A" [epsilon] 0).render = "A -> ·" := by
  decide +kernel

end Item

/-- The key of an item set: its items without repeats, in increasing order. -/
def itemSetKey (items : List Item) : List Item :=
  items.eraseDups.mergeSort fun a b => !Item.lt b a

/-- Whether two lists of items hold the same item set. -/
def sameItemSet (a b : List Item) : Bool := itemSetKey a == itemSetKey b

end SimpleLR
