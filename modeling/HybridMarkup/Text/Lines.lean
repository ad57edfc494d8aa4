/-
Lines and columns.

A line ends behind its line feed, and the last one at the end of the text. Lines and columns are
counted from zero and columns in bytes. An offset that falls inside a character, or beyond the
end, has no line and column; asking for them is refused rather than answered approximately.
-/
import HybridMarkup.Text

set_option autoImplicit false

namespace HybridMarkup

/-- A line and a column, both counted from zero. -/
structure LineColumn where
  line : Nat
  column : Nat
deriving DecidableEq, Repr, Inhabited

/-- The refusal to place an offset that is not between two characters of the text. -/
inductive Unplaceable where
  | unplaceable
deriving DecidableEq, Repr, Inhabited

namespace Text

/-- The offsets at which the lines of a text begin that itself begins at `offset`, the first line
left out. -/
def laterLineStarts : Nat → Text → List Nat
  | _, [] => []
  | offset, c :: t =>
    let next := offset + c.utf8Size
    if c = '\n' then next :: laterLineStarts next t else laterLineStarts next t

/-- The offsets at which the lines of a text begin. There is always at least one line. -/
def lineStarts (t : Text) : List Nat := 0 :: laterLineStarts 0 t

/-- The span of a line with its line break, if the text has that line. -/
def lineSpan? (t : Text) (line : Nat) : Option Span :=
  (lineStarts t)[line]?.map fun start => ⟨start, (lineStarts t)[line + 1]?.getD (size t)⟩

/-- The line and column of an offset, if it lies between two characters. -/
def lineColumn? (t : Text) (offset : Nat) : Option LineColumn :=
  if isBoundary offset t then
    let starts := (lineStarts t).takeWhile fun start => decide (start ≤ offset)
    some ⟨starts.length - 1, offset - starts.getLastD 0⟩
  else none

/-- The line and column of an offset, which has to lie between two characters. -/
def lineColumn (t : Text) (offset : Nat) : Except Unplaceable LineColumn :=
  match lineColumn? t offset with
  | some place => .ok place
  | none => .error .unplaceable

end Text

end HybridMarkup
