/-
An editor's position and the place it stands for.

The lines of a text are described without the table that finds them: a line (`Text.Line`) is a part
without line breaks that begins at the start of the text or behind a break, and ends at the end of
the text or in front of one. The table has the start of such a line at its number (`Line.starts`),
which is all that is needed of it: the offsets from the start of a line to the break behind it are
those that are placed on that line (`Line.lineColumn_eq`), and a position on the line is looked up
from its start (`Line.lineSpan?_eq`).

The span of a line that is looked up has its break in it. A column that is taken back to the end of
that span is therefore behind the break, and the place is the start of the line that follows. This
is so for every column beyond the end of every line but the last one, and only then
(`Workspace.filePosition_line`).
-/
import HybridMarkup.Analysis
import HybridMarkup.Proofs.Spans
import Mathlib.Data.List.TakeWhile

set_option autoImplicit false

namespace HybridMarkup

namespace Text

/-! ## The table of line starts -/

theorem laterLineStarts_append (offset : Nat) (s t : Text) :
    laterLineStarts offset (s ++ t)
      = laterLineStarts offset s ++ laterLineStarts (offset + size s) t := by
  induction s generalizing offset with
  | nil => rfl
  | cons c s ih =>
    have hsize : offset + size (c :: s) = offset + c.utf8Size + size s := by
      simp only [size]
      omega
    rw [List.cons_append, laterLineStarts, laterLineStarts, ih, hsize]
    split <;> rfl

theorem length_laterLineStarts (offset : Nat) (t : Text) :
    (laterLineStarts offset t).length = t.count '\n' := by
  induction t generalizing offset with
  | nil => rfl
  | cons c t ih =>
    by_cases hc : c = '\n'
    · simp [laterLineStarts, hc, ih]
    · simp [laterLineStarts, hc, ih]

theorem laterLineStarts_eq_nil {t : Text} (h : '\n' ∉ t) (offset : Nat) :
    laterLineStarts offset t = [] := by
  rw [← List.length_eq_zero_iff, length_laterLineStarts, List.count_eq_zero.2 h]

theorem lt_of_mem_laterLineStarts {offset start : Nat} {t : Text}
    (h : start ∈ laterLineStarts offset t) : offset < start ∧ start ≤ offset + size t := by
  induction t generalizing offset with
  | nil => simp [laterLineStarts] at h
  | cons c t ih =>
    have hc := Char.utf8Size_pos c
    have hlater : start = offset + c.utf8Size ∨
        start ∈ laterLineStarts (offset + c.utf8Size) t := by
      rw [laterLineStarts] at h
      split at h
      · exact List.mem_cons.1 h
      · exact .inr h
    simp only [size]
    obtain rfl | hlater := hlater
    · omega
    · have hbounds := ih hlater
      omega

theorem lineSpan?_eq_none_iff {t : Text} {n : Nat} : lineSpan? t n = none ↔ t.count '\n' < n := by
  rw [lineSpan?, Option.map_eq_none_iff, List.getElem?_eq_none_iff, lineStarts, List.length_cons,
    length_laterLineStarts, Nat.succ_le_iff]

/-- An offset is on the last line that does not begin behind it. -/
theorem lineColumn_of_lineStarts {t : Text} {front rest : List Nat} {start offset : Nat}
    (hstarts : lineStarts t = front ++ start :: rest) (hfront : ∀ x ∈ front, x ≤ offset)
    (hstart : start ≤ offset) (hrest : ∀ x ∈ rest, offset < x) (h : isBoundary offset t = true) :
    t.lineColumn offset = .ok ⟨front.length, offset - start⟩ := by
  -- the search stops in front of the first start behind the offset
  have hbegun : (lineStarts t).takeWhile (fun x => decide (x ≤ offset)) = front ++ [start] := by
    have hnone : rest.takeWhile (fun x => decide (x ≤ offset)) = [] := by
      cases rest with
      | nil => rfl
      | cons x rest => simp [hrest x List.mem_cons_self]
    rw [hstarts, List.takeWhile_append_of_pos (by simpa using hfront),
      List.takeWhile_cons_of_pos (by simpa using hstart), hnone]
  simp [lineColumn, lineColumn?, h, hbegun]

/-! ## Lines -/

/-- A line of a text, without its line break, between what is before and what is behind it. -/
structure Line (t : Text) where
  before : Text
  content : Text
  behind : Text
  text_eq : t = before ++ content ++ behind
  begins : before = [] ∨ ∃ front, before = front ++ ['\n']
  free : '\n' ∉ content
  ends : behind = [] ∨ ∃ rest, behind = '\n' :: rest

namespace Line

variable {t : Text}

/-- How many lines are before it. -/
def number (l : Line t) : Nat := l.before.count '\n'

/-- The offset at which it begins. -/
def start (l : Line t) : Nat := size l.before

/-- The offset at which it ends, in front of its line break. -/
def stop (l : Line t) : Nat := l.start + size l.content

theorem number_le (l : Line t) : l.number ≤ t.count '\n' := by
  have hcount := congrArg (List.count '\n') l.text_eq
  rw [List.count_append, List.count_append] at hcount
  unfold number
  omega

theorem size_eq (l : Line t) : size t = l.stop + size l.behind := by
  calc size t
    _ = size (l.before ++ l.content ++ l.behind) := congrArg size l.text_eq
    _ = l.stop + size l.behind := by rw [size_append, size_append, stop, start]

/-- The start of a line lies between two characters. -/
theorem isBoundary_start (l : Line t) : isBoundary l.start t = true :=
  isBoundary_iff.2 ⟨l.before, l.content ++ l.behind, by simpa using l.text_eq, rfl⟩

/-- Behind the start of the text, and behind each break, a line begins. -/
theorem exists_of_begins {before rest : Text} (ht : t = before ++ rest)
    (hbegins : before = [] ∨ ∃ front, before = front ++ ['\n']) :
    ∃ l : Line t, l.before = before := by
  refine ⟨{ before, content := rest.takeWhile (· ≠ '\n'), behind := rest.dropWhile (· ≠ '\n'),
            text_eq := ?_, begins := hbegins, free := ?_, ends := ?_ }, rfl⟩
  · rw [List.append_assoc, List.takeWhile_append_dropWhile, ht]
  · intro h
    simpa using List.mem_takeWhile_imp h
  · rcases hrest : rest.dropWhile (· ≠ '\n') with - | ⟨c, rest'⟩
    · exact .inl rfl
    · have hne : rest.dropWhile (· ≠ '\n') ≠ [] := by
        rw [hrest]
        exact List.cons_ne_nil c rest'
      have hc := List.head_dropWhile_not (· ≠ '\n') hne
      simp only [hrest, List.head_cons] at hc
      exact .inr ⟨rest', by simpa using hc⟩

/-- What is behind a line that is not the last one begins with its break, and behind that the next
line begins. -/
theorem exists_next (l : Line t) (h : l.behind ≠ []) :
    ∃ m : Line t, m.number = l.number + 1 ∧ m.start = l.stop + 1 := by
  obtain ⟨rest, hrest⟩ := l.ends.resolve_left h
  have ht : t = l.before ++ l.content ++ ['\n'] ++ rest := by
    rw [List.append_assoc, List.singleton_append, ← hrest]
    exact l.text_eq
  obtain ⟨m, hm⟩ := exists_of_begins ht (.inr ⟨_, rfl⟩)
  refine ⟨m, ?_, ?_⟩
  · simp [number, hm, List.count_eq_zero.2 l.free]
  · simp only [start, stop, hm, size_append, size]
    rfl

/-- The text has a line for each of its breaks, and one more. -/
theorem exists_number_iff {n : Nat} : (∃ l : Line t, l.number = n) ↔ n ≤ t.count '\n' := by
  constructor
  · rintro ⟨l, rfl⟩
    exact l.number_le
  · intro h
    induction n with
    | zero =>
      obtain ⟨l, hl⟩ : ∃ l : Line t, l.before = [] := exists_of_begins rfl (.inl rfl)
      exact ⟨l, by simp [number, hl]⟩
    | succ n ih =>
      obtain ⟨l, hl⟩ := ih (by omega)
      have hbehind : l.behind ≠ [] := by
        -- with nothing behind it, all breaks of the text would be before this line
        intro hnil
        have hcount := congrArg (List.count '\n') l.text_eq
        rw [hnil, List.append_nil, List.count_append, List.count_eq_zero.2 l.free] at hcount
        simp only [number] at hl
        omega
      obtain ⟨m, hm, -⟩ := l.exists_next hbehind
      exact ⟨m, by rw [hm, hl]⟩

/-- **The table has the start of each line at the line's number.** -/
theorem starts (l : Line t) :
    ∃ front, lineStarts t = front ++ l.start :: laterLineStarts l.stop l.behind ∧
      front.length = l.number ∧ ∀ x ∈ front, x ≤ l.start := by
  -- inside the line no other one begins
  have hlater : lineStarts t = lineStarts l.before ++ laterLineStarts l.stop l.behind := by
    calc lineStarts t
      _ = lineStarts (l.before ++ l.content ++ l.behind) := congrArg lineStarts l.text_eq
      _ = _ := by
        simp [lineStarts, laterLineStarts_append, laterLineStarts_eq_nil l.free, start, stop]
  obtain hfirst | ⟨front, hfront⟩ := l.begins
  · refine ⟨[], ?_, ?_, by simp⟩
    · rw [hlater]
      simp [start, hfirst, lineStarts, laterLineStarts, size]
    · simp [number, hfirst]
  · refine ⟨lineStarts front, ?_, ?_, ?_⟩
    · rw [hlater]
      simp [start, hfront, lineStarts, laterLineStarts_append, size_append, laterLineStarts, size]
    · simp [number, hfront, lineStarts, length_laterLineStarts]
    · intro x hx
      have hsize : size front ≤ l.start := by
        rw [start, hfront, size_append]
        omega
      obtain rfl | hx := List.mem_cons.1 hx
      · omega
      · have hbounds := lt_of_mem_laterLineStarts hx
        omega

/-- **What is looked up of a line is the line with its break.** -/
theorem lineSpan?_eq (l : Line t) :
    lineSpan? t l.number = some ⟨l.start, if l.behind = [] then l.stop else l.stop + 1⟩ := by
  obtain ⟨front, hstarts, hnumber, -⟩ := l.starts
  have hstart : (lineStarts t)[l.number]? = some l.start := by
    simp [hstarts, ← hnumber]
  have hnext : (lineStarts t)[l.number + 1]? = (laterLineStarts l.stop l.behind)[0]? := by
    simp [hstarts, ← hnumber, List.getElem?_append_right]
  rw [lineSpan?, hstart, hnext, Option.map_some]
  obtain hlast | ⟨rest, hrest⟩ := l.ends
  · have hsize : size t = l.stop := by rw [l.size_eq, hlast, size, Nat.add_zero]
    simp [hlast, laterLineStarts, hsize]
  · have hbreak : '\n'.utf8Size = 1 := rfl
    simp [hrest, laterLineStarts, hbreak]

/-- **The offsets from the start of a line to its break are those on that line.** -/
theorem lineColumn_eq (l : Line t) {offset : Nat} (hstart : l.start ≤ offset)
    (hstop : offset ≤ l.stop) (h : isBoundary offset t = true) :
    t.lineColumn offset = .ok ⟨l.number, offset - l.start⟩ := by
  obtain ⟨front, hstarts, hnumber, hfront⟩ := l.starts
  rw [← hnumber]
  refine lineColumn_of_lineStarts hstarts ?_ hstart ?_ h
  · exact fun x hx => Nat.le_trans (hfront x hx) hstart
  · intro x hx
    have hbounds := lt_of_mem_laterLineStarts hx
    omega

end Line

end Text

/-! ## Positions -/

namespace Workspace

open Text

variable {w : Workspace} {path : Path} {d : Document}

theorem filePosition?_eq (hd : w.document? path = some d) (line column : Nat) :
    w.filePosition? path line column = (Text.lineSpan? d.text line).map fun span =>
      { path, offset := span.start + min column span.length } := by
  rw [filePosition?, hd, Option.bind_some]

theorem filePosition?_line (hd : w.document? path = some d) (l : Line d.text) (column : Nat) :
    w.filePosition? path l.number column
      = some ⟨path, l.start + min column (size l.content + if l.behind = [] then 0 else 1)⟩ := by
  rw [filePosition?_eq hd, l.lineSpan?_eq, Option.map_some]
  split <;> simp [Span.length, Line.stop, Nat.add_assoc]

theorem filePosition?_eq_none_iff {line column : Nat} :
    w.filePosition? path line column = none ↔
      ∀ d, w.document? path = some d → ∀ l : Line d.text, l.number ≠ line := by
  rcases hd : w.document? path with - | d
  · simp [filePosition?, hd]
  · rw [filePosition?_eq hd, Option.map_eq_none_iff, lineSpan?_eq_none_iff, ← Nat.not_le,
      ← Line.exists_number_iff]
    simp

/-- **A position that can be placed is on its line, unless its column is beyond the end of a line
that has a break behind it.** Then it is at the start of the line that follows. A position has no
place just when the text has no such line. -/
theorem filePosition_line (w : Workspace) (path : Path) (line column : Nat) :
    (w.filePosition? path line column = none ↔
        ∀ d, w.document? path = some d → ∀ l : Line d.text, l.number ≠ line) ∧
      ∀ d, w.document? path = some d → ∀ l : Line d.text, l.number = line →
        ∃ p, w.filePosition? path line column = some p ∧ p.path = path ∧
          (column ≤ size l.content ∨ l.behind = [] → isBoundary p.offset d.text = true →
            d.text.lineColumn p.offset = .ok ⟨line, min column (size l.content)⟩) ∧
          (size l.content < column → l.behind ≠ [] →
            d.text.lineColumn p.offset = .ok ⟨line + 1, 0⟩) := by
  refine ⟨filePosition?_eq_none_iff, ?_⟩
  rintro d hd l rfl
  refine ⟨_, filePosition?_line hd l column, rfl, ?_, ?_⟩
  · intro hon hboundary
    -- the break is out of reach, or there is none
    have hcolumn : min column (size l.content + if l.behind = [] then 0 else 1)
        = min column (size l.content) := by
      obtain hle | hlast := hon
      · omega
      · rw [if_pos hlast, Nat.add_zero]
    dsimp only at hboundary ⊢
    rw [hcolumn] at hboundary ⊢
    rw [l.lineColumn_eq (by omega) (by rw [Line.stop]; omega) hboundary, Nat.add_sub_cancel_left]
  · intro hbeyond hbehind
    -- behind the break the next line begins, and its start is as far as the column can get
    obtain ⟨m, hnumber, hstart⟩ := l.exists_next hbehind
    have hoffset : l.start + min column (size l.content + if l.behind = [] then 0 else 1)
        = m.start := by
      rw [if_neg hbehind, hstart, Line.stop]
      omega
    dsimp only
    rw [hoffset, m.lineColumn_eq (Nat.le_refl _) (by rw [Line.stop]; omega) m.isBoundary_start,
      hnumber, Nat.sub_self]

/-- Two lines, each with its break. -/
def twoLines : Document := { path := .ofString "/p.txt", version := 1, text := "ab\ncd\n".toList }

/-- The first of them. -/
def firstOfTwo : Line twoLines.text where
  before := []
  content := ['a', 'b']
  behind := "\ncd\n".toList
  text_eq := by decide
  begins := .inl rfl
  free := by decide
  ends := .inr ⟨"cd\n".toList, by decide⟩

/-- An editor that has them open. -/
def twoLinesShown : Workspace := (({} : Workspace).openDocument twoLines.path twoLines.text).2

/-- Inside the first line a position is at its column, and beyond its end at the start of the second
line. -/
theorem filePosition_line_first :
    twoLinesShown.document? twoLines.path = some twoLines ∧
      ∃ p, twoLinesShown.filePosition? twoLines.path 0 1 = some p ∧
        isBoundary p.offset twoLines.text = true ∧
        twoLines.text.lineColumn p.offset = .ok ⟨0, 1⟩ ∧
      ∃ q, twoLinesShown.filePosition? twoLines.path 0 40 = some q ∧
        twoLines.text.lineColumn q.offset = .ok ⟨1, 0⟩ := by
  have hopen : twoLinesShown.document? twoLines.path = some twoLines := by decide +kernel
  obtain ⟨p, hp, -, hon, -⟩ :=
    (filePosition_line twoLinesShown twoLines.path 0 1).2 twoLines hopen firstOfTwo rfl
  have hplace : twoLinesShown.filePosition? twoLines.path 0 1 = some ⟨twoLines.path, 1⟩ := by
    decide +kernel
  have hboundary : isBoundary p.offset twoLines.text = true := by
    rw [← Option.some.inj (hplace.symm.trans hp)]
    decide
  obtain ⟨q, hq, -, -, hbeyond⟩ :=
    (filePosition_line twoLinesShown twoLines.path 0 40).2 twoLines hopen firstOfTwo rfl
  exact ⟨hopen, p, hp, hboundary, hon (.inl (by decide)) hboundary, q, hq,
    hbeyond (by decide) (by decide)⟩

/-- It is not so that every position is placed on its line: a column beyond the end of the first
line is at the start of the second. -/
theorem filePosition_leaves_line :
    ¬ ∀ (w : Workspace) (path : Path) (line column : Nat) (d : Document) (l : Line d.text)
        (p : FilePosition), w.document? path = some d → l.number = line →
      w.filePosition? path line column = some p → isBoundary p.offset d.text = true →
        d.text.lineColumn p.offset = .ok ⟨line, min column (size l.content)⟩ := by
  intro h
  have hline := h twoLinesShown twoLines.path 0 40 twoLines firstOfTwo ⟨twoLines.path, 3⟩
    (by decide +kernel) rfl (by decide +kernel) rfl
  revert hline
  decide +kernel

end Workspace

end HybridMarkup
