/-
The picture of a diagnostic: its headline, its place, and the lines it is about with the span
marked below them.

```text
warning[tagUnClosed]: Tag is not closed.
 --> page.mdx:1:3
  |
1 |   x {a
  |  ___-
2 | | + b} y
  | |____- here
  |
```

A picture is a list of rows of styled characters, so that a mark can be put at a column whatever
stands to its left. Which lines are shown is decided first: those the span touches, with the
middle of a long span folded away. What is cut off a line that is wider than the terminal is
decided for all lines together, since the same columns have to stay in view in each of them.
-/
import HybridMarkup.Diagnostic
import HybridMarkup.Text.Width

set_option autoImplicit false

namespace HybridMarkup

namespace Snippet

/-! ## Rows of styled characters -/

/-- How a character is set off from plain text. -/
inductive Style where
  | plain
  | emphasis
  /-- Line numbers and the frame. -/
  | frame
  | error
  | warning
  | note
deriving DecidableEq, Repr

/-- Whether styles are shown. -/
inductive Terminal where
  | plain
  | ansi
deriving DecidableEq, Repr

/-- What switches a style on. -/
def Style.codes : Style → Text
  | plain => []
  | emphasis => "\x1b[1m".toList
  | frame => "\x1b[1m\x1b[94m".toList
  | error => "\x1b[1m\x1b[91m".toList
  | warning => "\x1b[1m\x1b[33m".toList
  | note => "\x1b[1m\x1b[92m".toList

/-- What switches a style off. -/
def Style.reset : Style → Text
  | plain => []
  | _ => "\x1b[0m".toList

/-- A row of the picture. -/
abbrev Row := List (Char × Style)

/-- The row with a text written over it from a column on. -/
def Row.put (row : Row) (column : Nat) (text : Text) (style : Style) : Row :=
  if text = [] then row
  else
    row.take column ++ List.replicate (column - row.length) (' ', .plain) ++
      text.map (fun c => (c, style)) ++ row.drop (column + text.length)

/-- The row with a text written behind it. -/
def Row.append (row : Row) (text : Text) (style : Style) : Row := row.put row.length text style

/-- The characters of a row, styles switched on and off as they change from `current`. -/
def Row.ansi : Style → Row → Text
  | current, [] => current.reset
  | current, (c, style) :: row =>
    (if style = current then [] else current.reset ++ style.codes) ++ c :: Row.ansi style row

/-- The characters of a row on a terminal. -/
def Row.shown (terminal : Terminal) (row : Row) : Text :=
  match terminal with
  | .plain => row.map Prod.fst
  | .ansi => Row.ansi .plain row

/-! ## Lines and marks -/

/-- A line of the source. Its span is without the line break. -/
structure Line where
  number : Nat
  text : Text
  span : Span
  breakSize : Nat
deriving Repr

/-- The lines made of the given parts, the last of which has no line break. A carriage return in
front of a line feed belongs to the line break, and an empty last part is no line. -/
def linesOf : Nat → Nat → List Text → List Line
  | _, _, [] => []
  | _, _, [[]] => []
  | number, start, [text] => [{ number, text, span := Span.ofLength start (Text.size text),
                                breakSize := 0 }]
  | number, start, part :: parts =>
    let isCrlf := part.getLast? == some '\r'
    let text := if isCrlf then part.dropLast else part
    let breakSize := if isCrlf then 2 else 1
    { number, text, span := Span.ofLength start (Text.size text), breakSize } ::
      linesOf (number + 1) (start + Text.size part + 1) parts

/-- How the marked span meets a line. Columns are counted as a terminal does. -/
inductive Mark where
  | none
  /-- The span lies within the line, between two columns. -/
  | whole (first last : Nat)
  /-- The span begins at a column and goes on beyond the line. -/
  | opens (column : Nat)
  /-- The span covers the line and goes on on both sides. -/
  | through
  /-- The span has begun on an earlier line and its last column is here. -/
  | closes (column : Nat)
deriving DecidableEq, Repr

/-- Whether the line is one that the picture must show. -/
def Mark.isEnd : Mark → Bool
  | none => false
  | through => false
  | _ => true

/-- The column of the `n`th byte of a line. Controls take no column. -/
def Line.column (l : Line) (n : Nat) : Nat :=
  Text.columns 0 (Text.takeBytes (min n (Text.size l.text)) l.text)

/-- How a span meets a line, when it has not ended on an earlier one. A span may end in the line
break, or one place beyond the end of the text. -/
def Line.mark (l : Line) (s : Span) : Mark :=
  let limit := l.span.stop + max l.breakSize 1
  if l.span.stop + l.breakSize < s.start then .none
  else if l.span.start ≤ s.start ∧ s.stop ≤ limit then
    let first := l.column (s.start - l.span.start)
    let last := l.column (s.stop - l.span.start)
    .whole first (if first = last then last + 1 else last)
  else if l.span.start ≤ s.start ∧ s.start ≤ l.span.stop + (l.breakSize - 1) ∧
      l.span.stop < s.stop then
    .opens (l.column (s.start - l.span.start))
  else if s.start < l.span.start ∧ limit < s.stop then .through
  else if s.start < l.span.start ∧ l.span.start ≤ s.stop ∧ s.stop ≤ limit then
    let last := l.column (s.stop - l.span.start) - 1
    .closes (if l.span.stop < s.stop then last + 1 else last)
  else .none

/-- Whether the span ends on a line with this mark. -/
def Mark.isLast : Mark → Bool
  | whole _ _ => true
  | closes _ => true
  | _ => false

/-- The lines with their marks. Behind the line on which the span ends there are none. -/
def markLines (s : Span) : List Line → List (Line × Mark)
  | [] => []
  | l :: ls =>
    let mark := l.mark s
    (l, mark) :: if mark.isLast then ls.map (·, Mark.none) else markLines s ls

/-- What the picture shows in one place: a line, or that lines were left out. -/
inductive Shown where
  | line (line : Line) (mark : Mark)
  | fold (mark : Mark)
deriving Repr

/-- The lines between two ends of the span. More than three are folded to the outer two. -/
def shownGap (gap : List (Line × Mark)) : List Shown :=
  match gap, gap.getLast? with
  | (first, mark) :: _, some (last, lastMark) =>
    if gap.length ≤ 3 then gap.map fun (line, mark) => .line line mark
    else [.line first mark, .fold mark, .line last lastMark]
  | _, _ => []

/-- What is shown from a line on at which the picture has begun. `gap` holds the lines since the
last end of the span, the latest first. -/
def shownFrom (gap : List (Line × Mark)) : List (Line × Mark) → List Shown
  | [] => []
  | (line, mark) :: lines =>
    if mark.isEnd then shownGap gap.reverse ++ .line line mark :: shownFrom [] lines
    else shownFrom ((line, mark) :: gap) lines

/-- What the picture shows of the lines. -/
def shownLines (lines : List (Line × Mark)) : List Shown :=
  shownFrom [] (lines.dropWhile fun (_, mark) => !mark.isEnd)

/-! ## Fitting the terminal -/

/-- The width of the terminal in columns. -/
def terminalWidth : Nat := 140

/-- The word that marks the span. -/
def label : Text := "here".toList

/-- The columns kept free on each side of the marks. -/
def padding : Nat := 6

/-- The part of every line that is in view. -/
structure View where
  left : Nat
  right : Nat
  width : Nat
  /-- A line as long as this ends in view. -/
  ending : Nat
deriving Repr

/-- The number of columns of white space at the front of a line, a tab taking four. -/
def indent (t : Text) : Nat :=
  (t.takeWhile Text.isBlank).foldl (fun n c => if c = '\t' then n + 4 else n + 1) 0

/-- The columns that a mark needs, from the first to behind the last. -/
def Mark.extent? : Mark → Option Span
  | whole first last => some ⟨first, last⟩
  | opens column => some ⟨column, column + 1⟩
  | closes column => some ⟨column, column + 1⟩
  | _ => Option.none

/-- The part in view when `width` columns are to be had. Long common indentation is never shown,
and lines of nothing but blanks have no indentation of their own: where there are no others,
nothing is shown at all. Beyond that, lines are cut only if one is too long: by their indentation
if that will do and the marks are not within it, and otherwise around the marks. Where the view
ends with the space kept free behind the marks, a line that reaches into that space counts as
cut. -/
def View.fit (width : Nat) (lines : List (Line × Mark)) : View :=
  let longest := ((lines.map fun (l, _) => Text.size l.text).max?).getD 0
  let inhabited := lines.filter fun (l, _) => !Text.isAllBlank l.text
  match (inhabited.map fun (l, _) => indent l.text).min? with
  | none =>
    -- a tab is shown as four columns, so no line reaches further than this
    let beyond := 4 * longest + 1
    { left := beyond, right := beyond, width, ending := beyond }
  | some shared =>
    let extents := lines.filterMap fun (_, mark) => mark.extent?
    let blank := shared - padding
    let spanLeft := (((extents.map Span.start).min?).getD 0) - padding
    let lastColumn := ((extents.map Span.stop).max?).getD 0
    let spanRight := lastColumn + padding
    let labelRight := lastColumn + (label.length + 1) + padding
    let view (left right : Nat) : View :=
      { left, right, width,
        ending := if right = spanRight ∨ right = labelRight then right - padding else right }
    let around (left : Nat) : View := view left (left + width)
    let left := if 20 < blank then blank - 16 else 0
    let right := max longest left
    -- in turn: everything, everything but the indentation, the marks with their label, the marks
    if right - left ≤ width then view left right
    else if blank ≤ labelRight ∧ labelRight - blank ≤ width then around blank
    else if labelRight - spanLeft ≤ width then
      around (spanLeft - (width - (labelRight - spanLeft)) / 2)
    else if spanRight - spanLeft ≤ width then
      around (spanLeft - (width - (spanRight - spanLeft)) / 5 * 2)
    else view spanLeft spanRight

/-- The end of what is in view of a line of the given size. -/
def View.rightOf (v : View) (size : Nat) : Nat :=
  if size - v.left ≤ v.width then size else min size v.right

/-- Whether a line of the given size goes on where the view ends. -/
def View.cutsRight (v : View) (size : Nat) : Bool := v.ending < size && v.left + v.width < size

/-- The characters that do not show as themselves: a tab is four spaces, and what would join
characters or turn the direction of writing is left out. -/
def cleanedChar (c : Char) : Text :=
  if c = '\t' then [' ', ' ', ' ', ' ']
  else if c = '\u200d' || ('\u202a' ≤ c && c ≤ '\u202e') || ('\u2066' ≤ c && c ≤ '\u2069') then []
  else [c]

/-- As many characters as fit into the columns. -/
def fitting : Nat → Text → Text
  | _, [] => []
  | room, c :: t =>
    let width := (Text.width? c).getD 1
    if room < width then [] else c :: fitting (room - width) t

/-! ## Drawing -/

/-- What the picture has in common with all its rows. -/
structure Frame where
  /-- The columns taken by line numbers. -/
  numberWidth : Nat
  /-- Whether a column beside the code is needed for a span of several lines. -/
  isMultiline : Bool
  view : View
  severity : Severity
deriving Repr

namespace Frame

/-- The style of the marks. -/
def style (f : Frame) : Style :=
  match f.severity with
  | .error => .error
  | .warn => .warning
  | .ignore => .note

/-- The character below a marked one. -/
def underline (f : Frame) : Char :=
  match f.severity with
  | .error => '^'
  | _ => '-'

/-- The words beside the marks. A note says what it is. -/
def labelText (f : Frame) : Text :=
  match f.severity with
  | .ignore => "note: ".toList ++ label
  | _ => label

/-- The column at which a line that leads from one line to another is drawn. -/
def ruleColumn (f : Frame) : Nat := f.numberWidth + 3

/-- The column at which the code begins. -/
def codeColumn (f : Frame) : Nat := if f.isMultiline then f.ruleColumn + 2 else f.ruleColumn

/-- A row that has only the frame. -/
def emptyRow (f : Frame) : Row := Row.put [] (f.numberWidth + 1) ['|'] .frame

/-- The row of a line's code, with what stands at the rule in front of it. Dots may cover it. -/
def codeRow (f : Frame) (l : Line) (rule text : Text) : Row :=
  let number := Text.ofNat l.number
  let numbered := List.replicate (f.numberWidth - number.length) ' ' ++ number ++ [' ', '|']
  let size := Text.size text
  let left := min f.view.left size
  let taken := fitting (f.view.rightOf size - left) (text.drop left)
  let dots := ['.', '.', '.']
  let row := ((Row.put [] 0 numbered .frame).put f.ruleColumn rule f.style).put f.codeColumn taken
    .plain
  let row := if 0 < f.view.left then row.put f.codeColumn dots .frame else row
  if f.view.cutsRight size then row.put (f.codeColumn + Text.columns 1 taken - 3) dots .frame
  else row

/-- The row below a line, up to the marked column: what stands at the rule, and the way from there
to the mark. -/
def ruleRow (f : Frame) (rule : Text) (column : Nat) : Row :=
  let dashes := List.replicate (column - f.ruleColumn) '_'
  ((f.emptyRow.put (f.ruleColumn + 1) dashes f.style).put f.ruleColumn rule f.style).put column
    [f.underline] f.style

/-- The rows of a line. -/
def lineRows (f : Frame) (l : Line) (mark : Mark) : List Row :=
  let text := l.text.flatMap cleanedChar
  let row := f.codeRow l [] text
  let cut := Text.columns 1 (text.take (min f.view.left (Text.size text)))
  let place (column : Nat) : Nat := f.codeColumn + column - cut
  let labelPlace (last : Nat) : Nat := f.codeColumn + (last + 1 - cut)
  match mark with
  | .none => [row]
  | .through => [f.codeRow l ['|'] text]
  | .opens column =>
    -- with nothing but blanks in front, the rule can begin on the line itself
    if (text.take column).all Text.isBlank then [row.put f.ruleColumn ['/'] f.style]
    else [row, f.ruleRow [] (place column)]
  | .closes column =>
    [row.put f.ruleColumn ['|'] f.style,
      (f.ruleRow ['|'] (place column)).put (labelPlace (column + 1)) f.labelText f.style]
  | .whole first last =>
    let marks := (List.range (last - first)).foldl
      (fun (row : Row) n => row.put (place (first + n)) [f.underline] f.style)
      (f.emptyRow.put (labelPlace last) f.labelText f.style)
    [row, marks]

/-- The rows of what is shown in one place. -/
def shownRows (f : Frame) : Shown → List Row
  | .line l mark => f.lineRows l mark
  | .fold mark =>
    let row := Row.put [] 0 ['.', '.', '.'] .frame
    [if mark = .through then row.put f.ruleColumn ['|'] f.style else row]

/-- The word for the severity. -/
def word (f : Frame) : Text :=
  match f.severity with
  | .error => "error".toList
  | .warn => "warning".toList
  | .ignore => "note".toList

/-- The row that says what was found. -/
def titleRow (f : Frame) (name message : Text) : Row :=
  let row := Row.append [] (f.word ++ '[' :: name ++ [']']) f.style
  if message = [] then row else (row.append [':', ' '] .plain).append message .emphasis

/-- The row that says where it was found. -/
def originRow (f : Frame) (path : Text) (line column : Nat) : Row :=
  ((Row.put [] f.numberWidth "-->".toList .frame).put (f.numberWidth + 4) path .plain).append
    (':' :: Text.ofNat line ++ ':' :: Text.ofNat column) .plain

end Frame

/-- The number of decimal digits of a line number; none if there are no lines. -/
def numberWidth (number : Nat) : Nat := if number = 0 then 0 else (Text.ofNat number).length

/-- The greatest number among the lines that are shown. -/
def lastNumber (shown : List Shown) : Nat :=
  shown.foldl (fun n place => match place with
    | .line l _ => max n l.number
    | .fold _ => n) 0

/-- Whether a line that is shown begins or ends a span of several lines. -/
def isMultiline (shown : List Shown) : Bool :=
  shown.any fun place => match place with
    | .line _ (.opens _) => true
    | .line _ (.closes _) => true
    | _ => false

/-- The part of a source that the picture is made of: from the start of the line in which the
span starts to the end of the line in which it ends. It comes with the number of its first line
and with the offset at which it begins. -/
def excerpt (text : Text) (s : Span) : Text × Nat × Nat :=
  let before := Text.takeBytes s.start text
  let lead := (before.reverse.takeWhile (· != '\n')).reverse
  let offset := Text.size before - Text.size lead
  let marked := Text.takeBytes (s.stop - s.start) (Text.dropBytes s.start text)
  let trail := (Text.dropBytes s.stop text).takeWhile (· != '\n')
  (lead ++ marked ++ trail, before.count '\n' + 1, offset)

end Snippet

open Snippet in
/-- The picture of a diagnostic about a document. -/
def Diagnostic.render (d : Diagnostic) (terminal : Terminal) (path text : Text) : Text :=
  let (source, number, offset) := excerpt text d.span
  let span : Span := ⟨d.span.start - offset, d.span.stop - offset⟩
  let lines := linesOf number 0 (Text.splitAt '\n' source)
  let marked := markLines span lines
  let shown := shownLines marked
  let reserved := 3 + (Text.ofNat (number + lines.length)).length
  let frame : Frame :=
    { numberWidth := numberWidth (lastNumber shown)
      isMultiline := isMultiline shown
      view := View.fit (terminalWidth - reserved) marked
      severity := d.severity }
  let place : Nat × Nat :=
    match lines with
    | [] => (1, 1)
    | l :: _ => (number, (Text.takeBytes (min span.start (Text.size l.text)) l.text).length + 1)
  let rows := [frame.titleRow d.name.toList d.message.toList,
    frame.originRow path place.1 place.2, frame.emptyRow] ++
    shown.flatMap frame.shownRows ++ [frame.emptyRow]
  List.intercalate ['\n'] (rows.map (Row.shown terminal))

end HybridMarkup
