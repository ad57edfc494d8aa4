/-
The tokens tile the document.

However often a scanner is asked, its answers lie side by side from the start of the document on,
cut it between two characters, and carry the characters they cover. The end of the document is a
token of its own, which is empty, stands at the very end and is repeated for ever; so the tokens up
to it are the document, cut into pieces.
-/
import HybridMarkup.Proofs.ScannerRuns

set_option autoImplicit false

namespace HybridMarkup

open Text

/-- The tokens lie side by side in the text from an offset on. None is inverted, each begins and
ends between two characters, and each carries the part of the text that it covers. -/
def Tiles (text : Text) : Nat → List Token → Prop
  | _, [] => True
  | start, t :: ts =>
    t.span.start = start ∧ t.span.start ≤ t.span.stop ∧ isBoundary t.span.start text = true ∧
      isBoundary t.span.stop text = true ∧ t.lexeme = slice text t.span ∧ Tiles text t.span.stop ts

namespace Scanner

theorem Within.tiles {text : Text} {s : Scanner} (h : s.Within text) (n : Nat) :
    Tiles text s.offset (s.tokens n) := by
  induction n generalizing s with
  | zero => trivial
  | succ n ih =>
    have hspan := s.scan_span
    refine ⟨?_, ?_, ?_, ?_, h.token_slice.symm, ?_⟩
    · rw [hspan.1]
    · rw [hspan.1]
      exact Nat.le.intro hspan.2.symm
    · rw [hspan.1]
      exact h.boundary
    · rw [hspan.1]
      exact h.scan.boundary
    · rw [hspan.1]
      exact ih h.scan

/-- The texts of the tokens, and what is left behind them, are what was left in front of them. -/
theorem rest_eq_lexemes_append (n : Nat) (s : Scanner) :
    s.rest = ((s.tokens n).map Token.lexeme).flatten ++ (s.after n).rest := by
  induction n generalizing s with
  | zero => rfl
  | succ n ih =>
    rw [tokens, List.map_cons, List.flatten_cons, List.append_assoc, after, ← ih s.scan.2]
    exact s.scan_reads

/-- A change of context is not seen from outside: the scanner that has turned answers as before. -/
theorem scan_of_turn {s : Scanner} {m : Memory}
    (h : s.memory.step s.dialect s.before s.rest = .turn m) :
    ({ s with memory := m } : Scanner).scan = s.scan := by
  have ht : s.rest ≠ [] := by
    intro hnil
    rw [hnil] at h
    simp [Memory.step, Move.plain] at h
  have hturn : s.memory.Turns s.rest m := by
    have hstep :
        (s.memory.step s.dialect s.before s.rest).Obeys s.dialect s.before s.memory s.rest :=
      Memory.step_obeys ht
    rw [h] at hstep
    exact hstep
  have hrank : m.state.rank < 2 :=
    Nat.lt_of_lt_of_le hturn.rank_lt (Memory.rank_le_two _)
  -- the turn is the first of the three steps, and what is behind it needs two only
  have hsettle : Memory.settle s.dialect s.before s.rest 3 s.memory
      = Memory.settle s.dialect s.before s.rest 3 m := by
    rw [Memory.settle_congr s.dialect s.before ht (Nat.lt_succ_of_lt hrank) hrank]
    simp only [Memory.settle, h]
  unfold scan
  rw [hsettle]
  rfl

/-- At the end of the text a request changes nothing that a later one could see. -/
theorem after_at_end {s : Scanner} (h : s.rest = []) (k : Nat) :
    (s.after k).scan.1 =
      { kind := .eos, span := Span.empty s.offset, lexeme := [], error := none } := by
  have hkeep : (s.after k).rest = [] ∧ (s.after k).offset = s.offset := by
    refine after_keeps (P := fun s' => s'.rest = [] ∧ s'.offset = s.offset) ?_ ⟨h, rfl⟩ k
    rintro s' ⟨hrest, hoffset⟩
    rw [scan_at_end hrest, ← hoffset]
    simp [take, hrest, Text.before, size]
  rw [scan_at_end hkeep.1, ← hkeep.2]
  simp [take, hkeep.1, Text.before, size, Span.empty]

/-- **The tokens tile the document.** However often the scanner is asked, the answers lie side by
side from the start of the document on and end between two characters; a step that only changes the
context leaves the place and what is answered there as they are; `eos` is answered exactly at the
end of the document, where it is empty, and is the answer to every further request; and then the
texts of the answers are the document. -/
theorem tokens_tile (dialect : Dialect) (text : Text) (n : Nat) :
    let first := start dialect text
    let s := first.after n
    Tiles text 0 (first.tokens n) ∧
      (∀ m, s.memory.step s.dialect s.before s.rest = .turn m →
        ({ s with memory := m } : Scanner).scan = s.scan) ∧
      (s.scan.1.kind = .eos ↔ s.offset = size text) ∧
      (s.scan.1.kind = .eos →
        (∀ k, (s.after k).scan.1 =
          { kind := .eos, span := Span.empty (size text), lexeme := [], error := none }) ∧
        ((first.tokens n).map Token.lexeme).flatten = text) := by
  intro first s
  have hfirst : first.Within text := start_within dialect text
  have hs : s.Within text := after_keeps (fun _ h => h.scan) hfirst n
  refine ⟨hfirst.tiles n, fun m h => scan_of_turn h, ?_, fun hkind => ⟨fun k => ?_, ?_⟩⟩
  · rw [scan_kind_eq_eos_iff, hs.offset_eq_size_iff]
  · have hrest : s.rest = [] := (scan_kind_eq_eos_iff s).1 hkind
    rw [after_at_end hrest, hs.offset_eq_size_iff.2 hrest]
  · have hrest : s.rest = [] := (scan_kind_eq_eos_iff s).1 hkind
    have htext := rest_eq_lexemes_append n first
    rw [show (first.after n).rest = [] from hrest, List.append_nil] at htext
    exact htext.symm

end Scanner

end HybridMarkup
