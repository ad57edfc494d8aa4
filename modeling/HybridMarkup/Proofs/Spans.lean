/-
Spans that cut a text between characters.

A span is two numbers, and a text can be cut at any two; but only a cut between characters gives a
part that the text consists of. `Span.Cuts` is that condition, and `Span.cuts_iff` restates it
without numbers: the text is three parts, and the span has the size of the first in front of it and
the size of the second inside. Everything that moves a span about (a part of a part, the cover of
two spans, a text that grows at its end) is shown there.
-/
import HybridMarkup.Proofs.ScannerRuns

set_option autoImplicit false

namespace HybridMarkup

open Text

namespace Text

theorem isBoundary_zero (t : Text) : isBoundary 0 t = true := by
  cases t <;> rfl

theorem isBoundary_size (t : Text) : isBoundary (size t) t = true :=
  isBoundary_iff.2 ⟨t, [], (List.append_nil t).symm, rfl⟩

theorem le_size_of_isBoundary {n : Nat} {t : Text} (h : isBoundary n t = true) : n ≤ size t := by
  obtain ⟨s, r, rfl, rfl⟩ := isBoundary_iff.1 h
  rw [size_append]
  exact Nat.le_add_right _ _

/-- A cut stays a cut when the text grows at its end. -/
theorem isBoundary_append {n : Nat} {t : Text} (h : isBoundary n t = true) (u : Text) :
    isBoundary n (t ++ u) = true := by
  obtain ⟨s, r, rfl, hs⟩ := isBoundary_iff.1 h
  exact isBoundary_iff.2 ⟨s, r ++ u, List.append_assoc s r u, hs⟩

theorem size_pos {t : Text} (h : t ≠ []) : 0 < size t := by
  cases t with
  | nil => exact absurd rfl h
  | cons c t => exact Nat.lt_of_lt_of_le (Char.utf8Size_pos c) (Nat.le_add_right _ _)

/-- Of two first parts of a text the one that is not longer is a first part of the other. -/
theorem append_of_size_le {s r s' r' : Text} (h : s ++ r = s' ++ r') (hle : size s ≤ size s') :
    ∃ u, s' = s ++ u ∧ r = u ++ r' := by
  rcases List.append_eq_append_iff.1 h with ⟨u, rfl, rfl⟩ | ⟨u, rfl, rfl⟩
  · exact ⟨u, rfl, rfl⟩
  -- the first part is the longer one, but not in bytes: so there is nothing between them
  · have hu : u = [] := by
      refine Classical.byContradiction fun hne => ?_
      have := size_pos hne
      rw [size_append] at hle
      omega
    subst hu
    exact ⟨[], by simp, by simp⟩

end Text

namespace Span

/-- The span lies in the text, is not inverted, and both its ends fall between two characters. -/
structure Cuts (s : Span) (text : Text) : Prop where
  ordered : s.start ≤ s.stop
  start : isBoundary s.start text = true
  stop : isBoundary s.stop text = true

/-- The span covers something. -/
def Covers (s : Span) : Prop := s.start < s.stop

instance (s : Span) : Decidable s.Covers := inferInstanceAs (Decidable (s.start < s.stop))

/-- The spans have nothing in common. -/
def Apart (s s' : Span) : Prop := s.stop ≤ s'.start ∨ s'.stop ≤ s.start

theorem Apart.symm {s s' : Span} (h : s.Apart s') : s'.Apart s := Or.symm h

variable {s : Span} {text : Text}

/-- **A span cuts a text into three parts**: one in front of it, one inside, and one behind. -/
theorem cuts_iff : s.Cuts text ↔
    ∃ a b c, text = a ++ (b ++ c) ∧ s.start = size a ∧ s.stop = size a + size b := by
  constructor
  · rintro ⟨hordered, hstart, hstop⟩
    obtain ⟨a, r, htext, ha⟩ := isBoundary_iff.1 hstart
    obtain ⟨a', c, htext', ha'⟩ := isBoundary_iff.1 hstop
    obtain ⟨b, rfl, rfl⟩ := append_of_size_le (htext ▸ htext') (by omega)
    refine ⟨a, b, c, htext, ha.symm, ?_⟩
    rw [← ha', size_append]
  · rintro ⟨a, b, c, rfl, hstart, hstop⟩
    refine ⟨by omega, ?_, ?_⟩
    · exact isBoundary_iff.2 ⟨a, b ++ c, rfl, hstart.symm⟩
    · refine isBoundary_iff.2 ⟨a ++ b, c, (List.append_assoc a b c).symm, ?_⟩
      rw [size_append, hstop]

/-- What a span cuts out is its middle part. -/
theorem slice_eq {a b c : Text} (hstart : s.start = size a) (hstop : s.stop = size a + size b) :
    slice (a ++ (b ++ c)) s = b := by
  have hlength : s.length = size b := by
    rw [length, hstart, hstop]
    exact Nat.add_sub_cancel_left _ _
  rw [slice, hlength, hstart, dropBytes_append, takeBytes_append]

theorem Cuts.stop_le (h : s.Cuts text) : s.stop ≤ size text := le_size_of_isBoundary h.stop

theorem Cuts.size_slice (h : s.Cuts text) : size (slice text s) = s.length := by
  obtain ⟨a, b, c, rfl, hstart, hstop⟩ := cuts_iff.1 h
  rw [slice_eq hstart hstop, length, hstart, hstop]
  exact (Nat.add_sub_cancel_left _ _).symm

/-- A span covers something if it cuts out something. -/
theorem Cuts.covers_iff (h : s.Cuts text) : s.Covers ↔ slice text s ≠ [] := by
  have hsize := h.size_slice
  unfold length at hsize
  unfold Covers
  constructor
  · intro hlt hnil
    rw [hnil, size] at hsize
    omega
  · intro hne
    have := size_pos hne
    omega

/-- Two spans that meet cut out what the two cut out, one behind the other. -/
theorem Cuts.slice_append {s' : Span} (h : s.Cuts text) (h' : s'.Cuts text)
    (hmeet : s'.start = s.stop) :
    slice text ⟨s.start, s'.stop⟩ = slice text s ++ slice text s' := by
  obtain ⟨a, b, r, rfl, hstart, hstop⟩ := cuts_iff.1 h
  obtain ⟨a', b', c, htext, hstart', hstop'⟩ := cuts_iff.1 h'
  have hsize : size (a ++ b) = size a' := by rw [size_append, ← hstop, ← hmeet, hstart']
  rw [← List.append_assoc] at htext
  -- what is in front of the second span is what the first one leaves behind it
  obtain ⟨u, rfl, hr⟩ := append_of_size_le htext (Nat.le_of_eq hsize)
  have hu : u = [] := by
    refine Classical.byContradiction fun hne => ?_
    have := size_pos hne
    rw [size_append (a ++ b) u] at hsize
    omega
  subst hu
  rw [List.nil_append] at hr
  rw [hr, slice_eq hstart hstop]
  have hsecond : slice (a ++ (b ++ (b' ++ c))) s' = b' := by
    rw [← List.append_assoc]
    rw [List.append_nil] at hstart' hstop'
    exact slice_eq hstart' hstop'
  rw [hsecond, ← List.append_assoc b b' c]
  have hend : s'.stop = size a + size (b ++ b') := by
    rw [List.append_nil, size_append] at hstop'
    rw [size_append, hstop', Nat.add_assoc]
  exact slice_eq hstart hend

theorem cuts_empty {offset : Nat} (h : isBoundary offset text = true) : (empty offset).Cuts text :=
  ⟨Nat.le_refl _, h, h⟩

theorem slice_empty (offset : Nat) (text : Text) : slice text (empty offset) = [] := by
  have htake (t : Text) : takeBytes 0 t = [] := by
    cases t with
    | nil => rfl
    | cons c t =>
      have := Char.utf8Size_pos c
      rw [takeBytes, if_neg (by omega)]
  rw [slice, length, empty, Nat.sub_self, htake]

/-- A text that grows at its end keeps what was cut out of it. -/
theorem Cuts.append (h : s.Cuts text) (more : Text) :
    s.Cuts (text ++ more) ∧ slice (text ++ more) s = slice text s := by
  refine ⟨⟨h.ordered, isBoundary_append h.start more, isBoundary_append h.stop more⟩, ?_⟩
  obtain ⟨a, b, c, rfl, hstart, hstop⟩ := cuts_iff.1 h
  rw [slice_eq hstart hstop, List.append_assoc, List.append_assoc, slice_eq hstart hstop]

/-- **A part of what a span cuts out** is cut out by a span as well. -/
theorem Cuts.part (h : s.Cuts text) {u v w : Text} (hslice : slice text s = u ++ (v ++ w)) :
    (ofLength (s.start + size u) (size v)).Cuts text ∧
      slice text (ofLength (s.start + size u) (size v)) = v := by
  obtain ⟨a, b, c, rfl, hstart, hstop⟩ := cuts_iff.1 h
  rw [slice_eq hstart hstop] at hslice
  subst hslice
  -- what is around the part goes to either side of it
  have htext : a ++ (u ++ (v ++ w) ++ c) = a ++ u ++ (v ++ (w ++ c)) := by simp
  have hfront : (ofLength (s.start + size u) (size v)).start = size (a ++ u) := by
    rw [ofLength, hstart, size_append]
  have hback : (ofLength (s.start + size u) (size v)).stop = size (a ++ u) + size v := by
    rw [ofLength, hstart, size_append]
  rw [htext]
  exact ⟨cuts_iff.2 ⟨a ++ u, v, w ++ c, rfl, hfront, hback⟩, slice_eq hfront hback⟩

/-- The least span that includes two of the text is one of the text. -/
theorem Cuts.cover {s' : Span} (h : s.Cuts text) (h' : s'.Cuts text) : (s.cover s').Cuts text := by
  have hordered := h.ordered
  have hordered' := h'.ordered
  refine ⟨?_, ?_, ?_⟩
  · show min s.start s'.start ≤ max s.stop s'.stop
    omega
  · show isBoundary (min s.start s'.start) text = true
    rcases Nat.le_total s.start s'.start with hle | hle
    · rw [Nat.min_eq_left hle]
      exact h.start
    · rw [Nat.min_eq_right hle]
      exact h'.start
  · show isBoundary (max s.stop s'.stop) text = true
    rcases Nat.le_total s.stop s'.stop with hle | hle
    · rw [Nat.max_eq_right hle]
      exact h'.stop
    · rw [Nat.max_eq_left hle]
      exact h.stop

/-- The end of a span may be moved on to any cut. -/
theorem Cuts.stretch (h : s.Cuts text) {stop : Nat} (hstop : isBoundary stop text = true)
    (hle : s.start ≤ stop) : (⟨s.start, stop⟩ : Span).Cuts text :=
  ⟨hle, h.start, hstop⟩

theorem isBoundary_max {m n : Nat} (hm : isBoundary m text = true) (hn : isBoundary n text = true) :
    isBoundary (max m n) text = true := by
  rcases Nat.le_total m n with h | h
  · rw [Nat.max_eq_right h]
    exact hn
  · rw [Nat.max_eq_left h]
    exact hm

end Span

/-! ## Tokens -/

/-- The token that is read next is cut out of the text. -/
theorem Scanner.Within.token_cuts {text : Text} {s : Scanner} (h : s.Within text) :
    s.scan.1.span.Cuts text := by
  rw [s.scan_span.1]
  refine ⟨?_, h.boundary, h.scan.boundary⟩
  rw [s.scan_span.2]
  exact Nat.le_add_right _ _

/-- The token is cut out of the text between two offsets. -/
structure Token.Reads (t : Token) (text : Text) (pos pos' : Nat) : Prop where
  start : t.span.start = pos
  stop : t.span.stop = pos'
  cuts : t.span.Cuts text
  lexeme : t.lexeme = slice text t.span

theorem Token.Reads.le {t : Token} {text : Text} {pos pos' : Nat} (h : t.Reads text pos pos') :
    pos ≤ pos' :=
  h.start ▸ h.stop ▸ h.cuts.ordered

theorem Scanner.Within.reads {text : Text} {s : Scanner} (h : s.Within text) :
    s.scan.1.Reads text s.offset s.scan.2.offset :=
  ⟨by rw [s.scan_span.1], by rw [s.scan_span.1], h.token_cuts, h.token_slice.symm⟩

/-- A token without characters stands at one place. -/
theorem Token.Reads.empty {t : Token} {text : Text} {pos pos' : Nat} (h : t.Reads text pos pos')
    (hnil : t.lexeme = []) : t.span.start = t.span.stop := by
  have hsize := h.cuts.size_slice
  have hordered := h.cuts.ordered
  rw [← h.lexeme, hnil, Span.length, size] at hsize
  omega

end HybridMarkup
