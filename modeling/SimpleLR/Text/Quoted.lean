import SimpleLR.Text.Printable
/-!
# Quoted names in messages

Messages show a name in its quoted form. The quote is a single quote, or a double quote when
the text holds a single quote and no double quote. Inside, a backslash and the chosen quote are
preceded by a backslash; tab, line feed and carriage return are written `\t`, `\n`, `\r`; the
other characters below the space, DEL, and every character that is not printable are written
as a lower-case hexadecimal escape of two, four or eight digits, the fewest of those that hold
the code point. Everything else stands as it is.
-/

namespace SimpleLR.Text

/-- The lower-case hexadecimal digits of `n`, padded with zeros on the left to `width`. -/
def hexDigits (width n : Nat) : List Char :=
  let ds := Nat.toDigits 16 n
  List.replicate (width - ds.length) '0' ++ ds

/-- The escape of a code point: `\x` and two digits up to `0xff`, `\u` and four up to
`0xffff`, `\U` and eight above. -/
def hexEscape (n : Nat) : List Char :=
  if n ≤ 0xFF then '\\' :: 'x' :: hexDigits 2 n
  else if n ≤ 0xFFFF then '\\' :: 'u' :: hexDigits 4 n
  else '\\' :: 'U' :: hexDigits 8 n

/-- The written form of one character between quotes `q`. -/
def escapeChar (q c : Char) : List Char :=
  if c = q ∨ c = '\\' then ['\\', c]
  else if c = '\t' then ['\\', 't']
  else if c = '\n' then ['\\', 'n']
  else if c = '\r' then ['\\', 'r']
  else if c.toNat < 0x20 ∨ c.toNat = 0x7F then hexEscape c.toNat
  else if c.toNat < 0x7F ∨ isPrintable c then [c]
  else hexEscape c.toNat

/-- The quote that encloses a text: a double quote only when the text holds a single quote
and no double quote, so that neither needs a backslash then. -/
def quoteFor (cs : List Char) : Char :=
  if '\'' ∈ cs ∧ '"' ∉ cs then '"' else '\''

/-- The quoted form of a text, as a list of characters. -/
def quoteChars (cs : List Char) : List Char :=
  let q := quoteFor cs
  q :: cs.flatMap (escapeChar q) ++ [q]

/-- The quoted form of a text. -/
def quote (s : String) : String :=
  String.ofList (quoteChars s.toList)

example : quote "ab" = "'ab'" ∧ quote "it's" = "\"it's\"" ∧ quote "a'\"" = "'a\\'\"'" := by
  decide +kernel

example : quote "\x00\t\x7f" = "'\\x00\\t\\x7f'" ∧ quote "\u00a0é\u200b" = "'\\xa0é\\u200b'" := by
  decide +kernel

theorem escapeChar_of_plain (q c : Char) (hq : c ≠ q) (hb : c ≠ '\\')
    (lo : 0x20 ≤ c.toNat) (hi : c.toNat < 0x7F) : escapeChar q c = [c] := by
  have ht : c ≠ '\t' := by rintro rfl; simp at lo
  have hn : c ≠ '\n' := by rintro rfl; simp at lo
  have hr : c ≠ '\r' := by rintro rfl; simp at lo
  simp [escapeChar, hq, hb, ht, hn, hr, hi]
  omega

end SimpleLR.Text
