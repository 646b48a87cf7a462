import SimpleLR.Text.Digit
import SimpleLR.Text.Quoted
/-!
# Actions and the text of table cells

An action of a table shifts to a state, reduces by a rule, or accepts. In a table an action
cell is written as text: empty for no action, `s` or `r` and the number for a shift or a
reduce, `acc` for accept; a goto cell holds a state number. Numbers of more than `digitLimit`
digits are neither written nor read. Reading accepts after `s` or `r` any non-empty run of
digits; it refuses a number cell, a number whose leading run of decimal digits is longer than
`digitLimit`, and a run holding a digit that is not a decimal digit (such as a superscript),
which has no value.
-/

namespace SimpleLR

open SimpleLR.Text

/-- An action of a parse table. -/
inductive Action where
  | shift (state : Nat)
  | reduce (rule : Nat)
  | accept
deriving DecidableEq, Repr

namespace Action

/-- The letters that name the kind of an action. -/
def kind : Action → String
  | .shift _ => "s"
  | .reduce _ => "r"
  | .accept => "acc"

/-- The number of an action: the state of a shift, the rule of a reduce, 0 for accept. -/
def arg : Action → Nat
  | .shift n => n
  | .reduce n => n
  | .accept => 0

end Action

/-- The text of an action given by its kind and number: `acc` for accept whatever the number,
otherwise the kind followed by the number in decimal. -/
def actionText (kind : String) (arg : Int) : String :=
  if kind = "acc" then "acc" else kind ++ toString arg

/-- The text of an action. The numbers of a table's actions count its states and rules, so
their texts are always short enough to be read back. -/
def Action.text (a : Action) : String := actionText a.kind a.arg

/-- What a table cell holds as a value: text, or a number for a goto cell. -/
inductive CellValue where
  | text (s : String)
  | number (n : Int)
deriving DecidableEq, Repr

/-- The most decimal digits that a number may have to be read. Longer numbers are refused by
their length alone, before any value is computed. -/
def digitLimit : Nat := 4300

/-- The digits that reading a number scans before it stops: the leading run of decimal digits. -/
def scannedDigits (cs : List Char) : Nat := (cs.takeWhile isDecimalDigit).length

/-- The first `n` characters of a text; an error message shows at most that much of a value. -/
def clip (n : Nat) (s : String) : String := String.ofList (s.toList.take n)

/-- Why a cell value is not an action, or an action cannot be written. -/
inductive CellError where
  | gotoCell (n : Int)
  | badText (s : String)
  | badDigits (digits : String)
  | tooManyDigits (count : Nat)
  | numberTooLong
deriving DecidableEq, Repr

/-- The words that report a cell error. -/
def CellError.message : CellError → String
  | .gotoCell n => "GOTO cell " ++ toString n ++ " is not an action"
  | .badText s => "bad action cell " ++ quote s
  | .badDigits d => "invalid literal for int() with base 10: " ++ clip 200 (quote d)
  | .tooManyDigits n =>
    "Exceeds the limit (" ++ toString digitLimit ++
      " digits) for integer string conversion: value has " ++ toString n ++
      " digits; use sys.set_int_max_str_digits() to increase the limit"
  | .numberTooLong =>
    "Exceeds the limit (" ++ toString digitLimit ++
      " digits) for integer string conversion; use sys.set_int_max_str_digits() to increase the limit"

/-- Writes the action of a kind and a number as the text of a cell. Accept is written whatever
its number; a number of more than `digitLimit` digits, sign aside, cannot be written. -/
def writeAction (kind : String) (arg : Int) : Except CellError String :=
  if kind ≠ "acc" ∧ digitLimit < (Nat.toDigits 10 arg.natAbs).length then .error .numberTooLong
  else .ok (actionText kind arg)

/-- The text of a cell that holds an action, or none. -/
def encodeAction : Option Action → Except CellError String
  | none => .ok ""
  | some a => writeAction a.kind a.arg

/-- Reads the characters of an action cell. The length of the number is checked before its
digits are. -/
def decodeChars : List Char → Except CellError (Option Action)
  | [] => .ok none
  | ['a', 'c', 'c'] => .ok (some .accept)
  | k :: rest =>
    if (k = 's' ∨ k = 'r') ∧ rest ≠ [] ∧ rest.all isDigit then
      if digitLimit < scannedDigits rest then .error (.tooManyDigits (scannedDigits rest))
      else match decimalValue? rest with
      | some n => .ok (some (if k = 's' then .shift n else .reduce n))
      | none => .error (.badDigits (String.ofList rest))
    else .error (.badText (String.ofList (k :: rest)))

/-- Reads a cell value as an action cell. A number cell is a goto cell and is refused; as the
refusal writes the number, a number of more than `digitLimit` digits is refused as too long. -/
def decodeCell : CellValue → Except CellError (Option Action)
  | .number n =>
    if digitLimit < (Nat.toDigits 10 n.natAbs).length then .error .numberTooLong
    else .error (.gotoCell n)
  | .text s => decodeChars s.toList

/-- The error of a failed reading, if it failed. -/
def CellError.of? : Except CellError (Option Action) → Option CellError
  | .error e => some e
  | .ok _ => none

example : (decodeChars "r007".toList).toOption = some (some (.reduce 7)) ∧
    (decodeChars "acc".toList).toOption = some (some .accept) ∧
    CellError.of? (decodeChars "s".toList) = some (.badText "s") ∧
    CellError.of? (decodeChars "s²".toList) = some (.badDigits "²") ∧
    CellError.of? (decodeChars ('r' :: List.replicate 4301 '0')) = some (.tooManyDigits 4301) := by
  decide +kernel

theorem scannedDigits_toDigits (n : Nat) :
    scannedDigits (Nat.toDigits 10 n) = (Nat.toDigits 10 n).length := by
  have hall : ∀ c ∈ Nat.toDigits 10 n, isDecimalDigit c = true := fun c hc =>
    isDecimalDigit_of_charIsDigit (Nat.isDigit_of_mem_toDigits (by decide) (by decide) hc)
  suffices h : ∀ cs : List Char, (∀ c ∈ cs, isDecimalDigit c = true) →
      cs.takeWhile isDecimalDigit = cs by
    rw [scannedDigits, h _ hall]
  intro cs h
  induction cs with
  | nil => rfl
  | cons c cs ih => simp [h c (by simp), ih (fun x hx => h x (by simp [hx]))]

theorem decodeChars_digits (k : Char) (hk : k = 's' ∨ k = 'r') (n : Nat)
    (hn : (Nat.toDigits 10 n).length ≤ digitLimit) :
    decodeChars (k :: Nat.toDigits 10 n) =
      .ok (some (if k = 's' then .shift n else .reduce n)) := by
  have hall : (Nat.toDigits 10 n).all isDigit = true := by
    rw [List.all_eq_true]
    exact fun c hc =>
      isDigit_of_charIsDigit (Nat.isDigit_of_mem_toDigits (by decide) (by decide) hc)
  have hne : Nat.toDigits 10 n ≠ [] := Nat.toDigits_ne_nil
  have hlim : ¬digitLimit < scannedDigits (Nat.toDigits 10 n) := by
    rw [scannedDigits_toDigits]
    omega
  rcases hk with rfl | rfl <;>
    simp [decodeChars, hall, hne, hlim, decimalValue?_toDigits]

theorem length_toDigits_le_iff_lt_pow {n k : Nat} (hk : 0 < k) :
    (Nat.toDigits 10 n).length ≤ k ↔ n < Nat.pow 10 k := by
  rw [Nat.pow_eq]
  exact Nat.length_toDigits_le_iff (by decide) hk

theorem length_toDigits_le_digitLimit {n : Nat} :
    (Nat.toDigits 10 n).length ≤ digitLimit ↔ n < Nat.pow 10 digitLimit :=
  length_toDigits_le_iff_lt_pow (by decide)

theorem decodeChars_tooManyDigits (k : Char) (hk : k = 's' ∨ k = 'r') (n : Nat)
    (hn : digitLimit < (Nat.toDigits 10 n).length) :
    decodeChars (k :: Nat.toDigits 10 n) = .error (.tooManyDigits (Nat.toDigits 10 n).length) := by
  have hall : (Nat.toDigits 10 n).all isDigit = true := by
    rw [List.all_eq_true]
    exact fun c hc =>
      isDigit_of_charIsDigit (Nat.isDigit_of_mem_toDigits (by decide) (by decide) hc)
  have hne : Nat.toDigits 10 n ≠ [] := Nat.toDigits_ne_nil
  rcases hk with rfl | rfl <;>
    simp [decodeChars, hall, hne, hn, scannedDigits_toDigits]

theorem toList_actionText (kind : String) (n : Nat) (h : kind ≠ "acc") :
    (actionText kind n).toList = kind.toList ++ Nat.toDigits 10 n := by
  simp [actionText, h, Int.repr, Nat.toList_repr]

end SimpleLR
