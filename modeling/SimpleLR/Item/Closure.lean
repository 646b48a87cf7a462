import SimpleLR.Item.Basic
/-!
# Closure and goto

The closure of an item list adds, for every item whose next symbol `B` the text defines, the
items `B -> · γ` of all of `B`'s alternatives, until nothing new comes. It works in passes: a
pass looks at every item in order and collects the new items it calls for, in order, and then
appends them. The items of the seed come first, without repeats, in the order they were given.

The goto of an item list on a symbol `X` moves the dot over `X` in every item whose next symbol
is `X`, and closes the result; there is none if no item expects `X`.
-/

namespace SimpleLR

namespace Grammar

/-- The items that one pass of closure adds to `items`, in the order they are found. -/
def closurePass (g : Grammar) (items : List Item) : List Item :=
  let stage (staged : List Item) (b : Symbol) : List Item :=
    (g.alternatives b).foldl (fun staged rhs =>
      let fresh := Item.initial b rhs
      if fresh ∈ items ∨ fresh ∈ staged then staged else staged ++ [fresh]) staged
  items.foldl (fun staged i => (i.next?.map (stage staged)).getD staged) []

/-- Passes of closure, at most `fuel` of them. -/
def closeFrom (g : Grammar) : Nat → List Item → List Item
  | 0, items => items
  | fuel + 1, items =>
    match g.closurePass items with
    | [] => items
    | fresh => g.closeFrom fuel (items ++ fresh)

/-- The closure of a list of items. Each pass that adds something adds an item `B -> · γ` of a
rule of the text that was not there, so one pass more than there are rules is enough. -/
def closure (g : Grammar) (seed : List Item) : List Item :=
  g.closeFrom (g.productions.length + 1) seed.eraseDups

/-- The items of a list whose dot stands before `x`, with the dot moved over it. -/
def moveOver (items : List Item) (x : Symbol) : List Item :=
  (items.filter (·.next? == some x)).map Item.advance

/-- The goto of an item list on a symbol: none when no item expects the symbol. -/
def goto? (g : Grammar) (items : List Item) (x : Symbol) : Option (List Item) :=
  match moveOver items x with
  | [] => none
  | moved => some (g.closure moved)

end Grammar

/-- The symbols right after a dot, each once, in order of first appearance. -/
def symbolsAfterDot (items : List Item) : List Symbol :=
  (items.filterMap Item.next?).eraseDups

end SimpleLR
