/-
Reading the settings language: what a reader is, and what may stand between the parts of a
document.

Space is made of blanks and tabs. A line break is a line feed with or without a carriage return in
front; a carriage return alone is none, and stands nowhere in a document. A comment goes on to the
end of its line.
-/
import HybridMarkup.Text

set_option autoImplicit false

namespace HybridMarkup.Toml

/-- A reader takes something from the front of a text, or refuses. -/
abbrev Reader (α : Type) := Text → Option (α × Text)

/-- Drops spaces and tabs. -/
def skipSpace (t : Text) : Text := t.dropWhile fun c => c == ' ' || c == '\t'

/-- A character that may stand in a comment or between quotes on one line. -/
def isPlain (c : Char) : Bool := (decide (0x20 ≤ c.toNat) || c == '\t') && c != '\x7f'

/-- Drops a comment, if there is one. -/
def skipComment : Text → Text
  | '#' :: t => t.dropWhile isPlain
  | t => t

/-- What follows a line break. -/
def lineBreak? : Text → Option Text
  | '\n' :: t => some t
  | '\r' :: '\n' :: t => some t
  | _ => none

/-- What follows the end of a statement: space, a comment, and then a line break, unless the
document ends there. -/
def endOfLine? (t : Text) : Option Text :=
  match skipComment (skipSpace t) with
  | [] => some []
  | t => lineBreak? t

/-- Drops space, comments and at most so many line breaks. -/
def skipBlank : Nat → Text → Text
  | 0, t => t
  | fuel + 1, t =>
    let t := skipComment (skipSpace t)
    match lineBreak? t with
    | some t => skipBlank fuel t
    | none => t

/-- Drops space, comments and line breaks. There are no more breaks than characters. -/
def skipAll (t : Text) : Text := skipBlank (t.length + 1) t

/-- The value of a hexadecimal digit. -/
def hexDigit? (c : Char) : Option Nat :=
  if c.isDigit then some (c.toNat - '0'.toNat)
  else if 'a' ≤ c ∧ c ≤ 'f' then some (c.toNat - 'a'.toNat + 10)
  else if 'A' ≤ c ∧ c ≤ 'F' then some (c.toNat - 'A'.toNat + 10)
  else none

end HybridMarkup.Toml
