/-!
# Grammars

A grammar is a list of rules, each a left-hand side and one alternative. The symbol `ε` spells
the empty alternative: it is written `A -> ε`, and an item or a reduction of such a rule sees no
symbol at all. The rules written in the text come after one more rule, the augmented start
rule `S' -> S`, which takes the fresh name `S'` for its left-hand side and the first rule's
left-hand side `S` for its body; a table accepts exactly when it would reduce that rule.
-/

namespace SimpleLR

/-- A grammar symbol is its name. -/
abbrev Symbol := String

/-- The name that spells the empty alternative. -/
def epsilon : Symbol := "ε"

/-- The end marker: the column of the end of the input. No rule may use it. -/
def endMarker : Symbol := "$"

/-- The symbols that an alternative derives, in order: none for the empty alternative `[ε]`. -/
def bodyOf (rhs : List Symbol) : List Symbol :=
  if rhs = [epsilon] then [] else rhs

/-- A rule: a left-hand side, one alternative, and the line of the text that wrote it (none for
the augmented start rule). -/
structure Rule where
  lhs : Symbol
  rhs : List Symbol
  line : Option Nat
deriving DecidableEq, Repr

namespace Rule

/-- Whether this is the augmented start rule, the only rule that no line wrote. -/
def augmented (r : Rule) : Bool := r.line.isNone

/-- The symbols the rule derives. -/
def body (r : Rule) : List Symbol := bodyOf r.rhs

/-- The text of a rule: `A -> x y`, and `A -> ε` for the empty alternative. -/
def render (r : Rule) : String := r.lhs ++ " -> " ++ " ".intercalate r.rhs

end Rule

/-- A grammar as read from its text. -/
structure Grammar where
  origin : Symbol
  start : Symbol
  productions : List Rule
deriving DecidableEq, Repr

namespace Grammar

/-- The augmented start rule `S' -> S`. -/
def startRule (g : Grammar) : Rule := ⟨g.start, [g.origin], none⟩

/-- All rules, numbered from 0: the augmented start rule, then those of the text. A reduction
names its rule by this number. -/
def rules (g : Grammar) : List Rule := g.startRule :: g.productions

/-- The non-terminals that the text defines, in order of first definition. The augmented start
is not among them. -/
def defined (g : Grammar) : List Symbol := (g.productions.map (·.lhs)).eraseDups

/-- Whether the text defines the symbol by a rule. -/
def defines (g : Grammar) (x : Symbol) : Bool := g.productions.any (·.lhs == x)

/-- The alternatives that the text gives a symbol, in order. -/
def alternatives (g : Grammar) (x : Symbol) : List (List Symbol) :=
  (g.productions.filter (·.lhs == x)).map (·.rhs)

/-- The number of the first rule with this left-hand side and alternative. -/
def ruleIndex? (g : Grammar) (lhs : Symbol) (rhs : List Symbol) : Option Nat :=
  g.rules.findIdx? fun r => r.lhs == lhs && r.rhs == rhs

/-- The message when no rule has this left-hand side and alternative. -/
def noRuleMessage (lhs : Symbol) (rhs : List Symbol) : String :=
  "no rule " ++ lhs ++ " -> " ++ " ".intercalate rhs

theorem rules_length (g : Grammar) : g.rules.length = g.productions.length + 1 := by
  simp [rules]

theorem defines_iff (g : Grammar) (x : Symbol) :
    g.defines x = true ↔ ∃ r ∈ g.productions, r.lhs = x := by
  simp [defines]

end Grammar

end SimpleLR
