/-
The classes of characters the readers of this library tell apart.

Three notions of space live side by side, and which one a rule uses is part of the rule. Markup
itself knows only the five ASCII characters of `isSpace`; a value without quotes ends at any
`isBlank` character; and whether a text counts as empty is again decided by `isBlank`.
-/
import HybridMarkup.Text
import HybridMarkup.Text.Class.Word
import HybridMarkup.Text.Class.Alphanumeric
import HybridMarkup.Text.Class.Escaped

set_option autoImplicit false

namespace HybridMarkup

/-- The characters of the property White_Space. -/
def CharSet.blank : CharSet where
  flips := [
    0x9, 0xE, 0x20, 0x21, 0x85, 0x86, 0xA0, 0xA1, 0x1680, 0x1681, 0x2000, 0x200B, 0x2028, 0x202A,
    0x202F, 0x2030, 0x205F, 0x2060, 0x3000, 0x3001]

namespace Text

/-- White space in the sense of Unicode. -/
def isBlank (c : Char) : Bool := CharSet.blank.contains c

/-- The two characters that separate words within a line. -/
def isLineSpace (c : Char) : Bool := c == ' ' || c == '\t'

/-- The three characters that break a line: line feed, carriage return and form feed. -/
def isLineBreak (c : Char) : Bool := c == '\n' || c == '\r' || c == '\x0c'

/-- What markup takes for space. -/
def isSpace (c : Char) : Bool := isLineSpace c || isLineBreak c

/-- A character of an element name that needs no further permission. -/
def isWord (c : Char) : Bool := CharSet.word.contains c

/-- A character that continues a word of the host language. -/
def continuesIdentifier (c : Char) : Bool :=
  CharSet.alphanumeric.contains c || c == '_' || c == '$'

/-- Whether the text holds nothing but blanks; the empty text does. -/
def isAllBlank (t : Text) : Bool := t.all isBlank

/-- What markup takes for space is blank. -/
theorem isBlank_of_isSpace {c : Char} (h : isSpace c = true) : isBlank c = true := by
  simp only [isSpace, isLineSpace, isLineBreak, Bool.or_eq_true, beq_iff_eq] at h
  rcases h with (rfl | rfl) | (rfl | rfl) | rfl <;> decide

end Text

end HybridMarkup
