import SimpleLR.Text.Space
/-!
# Tokens of a rule line

A rule line is read as a sequence of tokens: the arrow `->`, the bar `|`, and names. A name is
a longest run of characters that are neither white space nor `|` and in which no `->` starts;
so `b-->c` reads as `b-`, `->`, `c`, and `->>` as `->`, `>`. White space, in the sense of
Unicode White_Space, only separates tokens. Each token keeps the column, counted in characters
from 1, where it starts.
-/

namespace SimpleLR

open SimpleLR.Text

/-- The three kinds of token of a rule line. -/
inductive TokenKind where
  | arrow
  | bar
  | name
deriving DecidableEq, Repr

/-- A token and the column where it starts. -/
structure Token where
  kind : TokenKind
  text : String
  column : Nat
deriving DecidableEq, Repr

namespace Token

/-- A name begun at `column`, its characters so far reversed. -/
structure Pending where
  column : Nat
  reversed : List Char

/-- The token list `ts` preceded by the name in progress, if any. -/
def flush : Option Pending → List Token → List Token
  | none, ts => ts
  | some p, ts => ⟨.name, String.ofList p.reversed.reverse, p.column⟩ :: ts

/-- The name in progress with one more character `c` at column `col`. -/
def extend (p : Option Pending) (c : Char) (col : Nat) : Pending :=
  match p with
  | none => ⟨col, [c]⟩
  | some p => ⟨p.column, c :: p.reversed⟩

/-- The tokens of a line whose remaining characters start at column `col`, with the name in
progress `p` before them. -/
def scanFrom : List Char → Nat → Option Pending → List Token
  | [], _, p => flush p []
  | '-' :: '>' :: rest, col, p => flush p (⟨.arrow, "->", col⟩ :: scanFrom rest (col + 2) none)
  | '|' :: rest, col, p => flush p (⟨.bar, "|", col⟩ :: scanFrom rest (col + 1) none)
  | c :: rest, col, p =>
    if isWhiteSpace c then flush p (scanFrom rest (col + 1) none)
    else scanFrom rest (col + 1) (some (extend p c col))

/-- The tokens of a rule line. -/
def scan (line : List Char) : List Token := scanFrom line 1 none

example : (scan "b-->c".toList).map (·.text) = ["b-", "->", "c"] ∧
    (scan "->>".toList).map (·.text) = ["->", ">"] ∧
    (scan " A\u3000->x|".toList).map (·.column) = [2, 4, 6, 7] := by
  decide +kernel

/-- The alternatives after the arrow: the tokens between bars, one group per alternative.
There is always one more group than there are bars. -/
def groups : List Token → List (List Token)
  | [] => [[]]
  | t :: ts =>
    if t.kind = .bar then [] :: groups ts
    else
      match groups ts with
      | g :: gs => (t :: g) :: gs
      | [] => [[t]]

theorem groups_ne_nil (ts : List Token) : groups ts ≠ [] := by
  cases ts with
  | nil => simp [groups]
  | cons t ts =>
    simp only [groups]
    split
    · simp
    · split <;> simp

end Token

end SimpleLR
