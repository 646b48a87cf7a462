import SimpleLR.Text.Ranges
/-!
# Blank characters

Two classes of blank characters, and the trimming and splitting built on them.

* `isWhiteSpace` is the Unicode `White_Space` property: 25 code points. It separates the
  tokens of a rule line.
* `isBlank` adds the four information separators U+001C–U+001F. It decides which lines
  of a grammar are blank, trims text, and splits the token text of the command line.

Text is handled as `List Char` here, so that the functions are plain structural recursions.
-/

namespace SimpleLR.Text

/-- The Unicode `White_Space` property, unchanged since Unicode 6.3. -/
def whiteSpace : List CodeRange :=
  [⟨0x09, 0x0D⟩, ⟨0x20, 0x20⟩, ⟨0x85, 0x85⟩, ⟨0xA0, 0xA0⟩, ⟨0x1680, 0x1680⟩,
   ⟨0x2000, 0x200A⟩, ⟨0x2028, 0x2029⟩, ⟨0x202F, 0x202F⟩, ⟨0x205F, 0x205F⟩,
   ⟨0x3000, 0x3000⟩]

example : wellSpaced whiteSpace = true ∧ size whiteSpace = 25 := by decide

/-- Whether `c` has the Unicode `White_Space` property. -/
def isWhiteSpace (c : Char) : Bool :=
  inRanges whiteSpace c.toNat

/-- The information separators U+001C–U+001F, blank for trimming though not white space. -/
def separators : List CodeRange :=
  [⟨0x1C, 0x1F⟩]

/-- Whether `c` is blank: white space or an information separator. -/
def isBlank (c : Char) : Bool :=
  isWhiteSpace c || inRanges separators c.toNat

theorem isBlank_of_isWhiteSpace {c : Char} (h : isWhiteSpace c = true) : isBlank c = true := by
  simp [isBlank, h]

example : isBlank '\x1c' = true ∧ isWhiteSpace '\x1c' = false ∧ isBlank '\u200b' = false := by
  decide

/-- The text without its leading blanks. -/
def trimLeft (cs : List Char) : List Char :=
  cs.dropWhile isBlank

/-- The text without its trailing blanks. -/
def trimRight (cs : List Char) : List Char :=
  (cs.reverse.dropWhile isBlank).reverse

/-- The text without leading and trailing blanks. -/
def trim (cs : List Char) : List Char :=
  trimRight (trimLeft cs)

/-- Whether the text holds blanks only. -/
def isBlankText (cs : List Char) : Bool :=
  cs.all isBlank

/-- The maximal runs of non-blank characters, given the reversed run read so far. -/
def wordsFrom : List Char → List Char → List (List Char)
  | [], run => if run.isEmpty then [] else [run.reverse]
  | c :: cs, run =>
    if isBlank c then
      if run.isEmpty then wordsFrom cs [] else run.reverse :: wordsFrom cs []
    else wordsFrom cs (c :: run)

/-- The maximal runs of non-blank characters of the text, in order. -/
def words (cs : List Char) : List (List Char) :=
  wordsFrom cs []

example : words " id\t+\x1cid ".toList = [['i', 'd'], ['+'], ['i', 'd']] := by decide

end SimpleLR.Text
