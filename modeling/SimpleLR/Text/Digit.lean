import SimpleLR.Text.Ranges
/-!
# Digits

Two classes of digit characters, from Unicode 14.0. The decimal digits (general category Nd)
come in runs of ten, zero to nine, so a digit's value is its distance from the start of its
range, modulo ten. The wider class of digits adds the characters that carry a digit value
without being decimal digits: superscripts, subscripts, circled and parenthesised digits and a
few others. A cell of a table is read as a number when its text after the kind letter is made
of digits of the wider class; its value exists only when all of them are decimal digits.
-/

namespace SimpleLR.Text

/-- The decimal digits, as ranges of whole runs of ten. -/
def decimalDigits : List CodeRange :=
[
  ⟨0x30, 0x39⟩, ⟨0x660, 0x669⟩, ⟨0x6F0, 0x6F9⟩, ⟨0x7C0, 0x7C9⟩, ⟨0x966, 0x96F⟩,
  ⟨0x9E6, 0x9EF⟩, ⟨0xA66, 0xA6F⟩, ⟨0xAE6, 0xAEF⟩, ⟨0xB66, 0xB6F⟩, ⟨0xBE6, 0xBEF⟩,
  ⟨0xC66, 0xC6F⟩, ⟨0xCE6, 0xCEF⟩, ⟨0xD66, 0xD6F⟩, ⟨0xDE6, 0xDEF⟩, ⟨0xE50, 0xE59⟩,
  ⟨0xED0, 0xED9⟩, ⟨0xF20, 0xF29⟩, ⟨0x1040, 0x1049⟩, ⟨0x1090, 0x1099⟩, ⟨0x17E0, 0x17E9⟩,
  ⟨0x1810, 0x1819⟩, ⟨0x1946, 0x194F⟩, ⟨0x19D0, 0x19D9⟩, ⟨0x1A80, 0x1A89⟩, ⟨0x1A90, 0x1A99⟩,
  ⟨0x1B50, 0x1B59⟩, ⟨0x1BB0, 0x1BB9⟩, ⟨0x1C40, 0x1C49⟩, ⟨0x1C50, 0x1C59⟩, ⟨0xA620, 0xA629⟩,
  ⟨0xA8D0, 0xA8D9⟩, ⟨0xA900, 0xA909⟩, ⟨0xA9D0, 0xA9D9⟩, ⟨0xA9F0, 0xA9F9⟩, ⟨0xAA50, 0xAA59⟩,
  ⟨0xABF0, 0xABF9⟩, ⟨0xFF10, 0xFF19⟩, ⟨0x104A0, 0x104A9⟩, ⟨0x10D30, 0x10D39⟩, ⟨0x11066, 0x1106F⟩,
  ⟨0x110F0, 0x110F9⟩, ⟨0x11136, 0x1113F⟩, ⟨0x111D0, 0x111D9⟩, ⟨0x112F0, 0x112F9⟩, ⟨0x11450, 0x11459⟩,
  ⟨0x114D0, 0x114D9⟩, ⟨0x11650, 0x11659⟩, ⟨0x116C0, 0x116C9⟩, ⟨0x11730, 0x11739⟩, ⟨0x118E0, 0x118E9⟩,
  ⟨0x11950, 0x11959⟩, ⟨0x11C50, 0x11C59⟩, ⟨0x11D50, 0x11D59⟩, ⟨0x11DA0, 0x11DA9⟩, ⟨0x16A60, 0x16A69⟩,
  ⟨0x16AC0, 0x16AC9⟩, ⟨0x16B50, 0x16B59⟩, ⟨0x1D7CE, 0x1D7FF⟩, ⟨0x1E140, 0x1E149⟩, ⟨0x1E2F0, 0x1E2F9⟩,
  ⟨0x1E950, 0x1E959⟩, ⟨0x1FBF0, 0x1FBF9⟩]

/-- The characters that carry a digit value but are not decimal digits. -/
def otherDigits : List CodeRange :=
[
  ⟨0xB2, 0xB3⟩, ⟨0xB9, 0xB9⟩, ⟨0x1369, 0x1371⟩, ⟨0x19DA, 0x19DA⟩, ⟨0x2070, 0x2070⟩,
  ⟨0x2074, 0x2079⟩, ⟨0x2080, 0x2089⟩, ⟨0x2460, 0x2468⟩, ⟨0x2474, 0x247C⟩, ⟨0x2488, 0x2490⟩,
  ⟨0x24EA, 0x24EA⟩, ⟨0x24F5, 0x24FD⟩, ⟨0x24FF, 0x24FF⟩, ⟨0x2776, 0x277E⟩, ⟨0x2780, 0x2788⟩,
  ⟨0x278A, 0x2792⟩, ⟨0x10A40, 0x10A43⟩, ⟨0x10E60, 0x10E68⟩, ⟨0x11052, 0x1105A⟩, ⟨0x1F100, 0x1F10A⟩]

example : wellSpaced decimalDigits = true ∧ size decimalDigits = 660 ∧
    wellSpaced otherDigits = true ∧ size otherDigits = 128 := by
  decide +kernel

/-- Whether a character is a decimal digit. -/
def isDecimalDigit (c : Char) : Bool := inRanges decimalDigits c.toNat

/-- Whether a character is a digit of the wider class. -/
def isDigit (c : Char) : Bool := isDecimalDigit c || inRanges otherDigits c.toNat

/-- The value of a decimal digit. -/
def digitValue? (c : Char) : Option Nat :=
  (rangeOf? decimalDigits c.toNat).map fun r => (c.toNat - r.lo) % 10

/-- The number that a text of decimal digits spells, most significant first; `none` when the
text is empty or holds a character that is not a decimal digit. Digits of different scripts
may be mixed. -/
def decimalValue? (cs : List Char) : Option Nat :=
  if cs.isEmpty then none
  else cs.foldlM (fun acc c => (digitValue? c).map fun d => 10 * acc + d) 0

example : decimalValue? "0042".toList = some 42 ∧ decimalValue? "١٢".toList = some 12 ∧
    decimalValue? "²".toList = none ∧ decimalValue? [] = none := by
  decide +kernel

example : isDigit '²' = true ∧ isDecimalDigit '²' = false ∧ isDigit 'x' = false := by
  decide +kernel

theorem isDigit_of_isDecimalDigit {c : Char} (h : isDecimalDigit c = true) :
    isDigit c = true := by
  simp [isDigit, h]

theorem decimalDigits_eq_cons : decimalDigits = ⟨0x30, 0x39⟩ :: decimalDigits.tail := rfl

theorem toNat_bounds_of_isDigit {c : Char} (h : c.isDigit = true) :
    48 ≤ c.toNat ∧ c.toNat ≤ 57 := by
  simp only [Char.isDigit, Bool.and_eq_true, decide_eq_true_eq, ge_iff_le,
    UInt32.le_iff_toNat_le] at h
  exact h

theorem digitValue?_of_isDigit {c : Char} (h : c.isDigit = true) :
    digitValue? c = some (c.toNat - '0'.toNat) := by
  have hc := toNat_bounds_of_isDigit h
  unfold digitValue? rangeOf?
  rw [decimalDigits_eq_cons, List.find?_cons_of_pos (by simp; omega)]
  simp only [Option.map_some, Option.some.injEq]
  rw [show '0'.toNat = 48 from rfl]
  omega

theorem isDecimalDigit_of_charIsDigit {c : Char} (h : c.isDigit = true) :
    isDecimalDigit c = true := by
  have hc := toNat_bounds_of_isDigit h
  simp only [isDecimalDigit, inRanges]
  rw [decimalDigits_eq_cons, List.any_cons]
  simp
  omega

theorem isDigit_of_charIsDigit {c : Char} (h : c.isDigit = true) : isDigit c = true :=
  isDigit_of_isDecimalDigit (isDecimalDigit_of_charIsDigit h)

theorem foldlM_digitValue? {cs : List Char} (h : ∀ c ∈ cs, c.isDigit = true) (acc : Nat) :
    cs.foldlM (fun acc c => (digitValue? c).map fun d => 10 * acc + d) acc =
      some (Nat.ofDigitChars 10 cs acc) := by
  induction cs generalizing acc with
  | nil => rfl
  | cons c cs ih =>
    rw [List.foldlM_cons, digitValue?_of_isDigit (h c (by simp)), Nat.ofDigitChars_cons]
    exact ih (fun x hx => h x (by simp [hx])) _

theorem decimalValue?_toDigits (n : Nat) : decimalValue? (Nat.toDigits 10 n) = some n := by
  unfold decimalValue?
  rw [if_neg (by simp [Nat.toDigits_ne_nil]),
    foldlM_digitValue? (fun c hc => Nat.isDigit_of_mem_toDigits (by decide) (by decide) hc),
    Nat.ofDigitChars_ten_toDigits]

end SimpleLR.Text
