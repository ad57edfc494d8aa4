/-
Prose without host code is read alike in both dialects of prose.

Mdx adds to Markdown what opens host code: a brace, an angle bracket that opens an element, and the
word that opens an import. A text in which none of these stands is plain (`Text.Plain`), and so is all
that is left of it at any time. In front of a plain text the additional rules find nothing, and a run
of text ends where it does in Markdown (`atTextEnd_eq`); as no other rule asks for the dialect, every
step is the same (`Memory.step_eq`). So the scanners of the two dialects go through the text with the
same tokens and the same memory, and differ in nothing but the name of their dialect
(`Scanner.after_inDialect`).
-/
import HybridMarkup.Proofs.ScannerRuns
import Mathlib.Data.List.Chain
import Mathlib.Data.List.Infix

set_option autoImplicit false

namespace HybridMarkup

open Text

/-- A text without host code: there is no brace that opens anything, no angle bracket directly in
front of an ASCII letter or of another angle bracket, and nowhere the word that opens an import. -/
structure Text.Plain (t : Text) : Prop where
  brace : '{' ∉ t
  bracket : t.IsChain fun c d => c = '<' → d.isAlpha = false ∧ d ≠ '>'
  word : ¬ HostCode.importKeyword <:+: t

variable {t u : Text}

theorem Text.Plain.suffix (h : t.Plain) (hu : u <:+ t) : u.Plain :=
  ⟨fun hmem => h.brace (hu.subset hmem), h.bracket.suffix hu,
    fun hword => h.word (hword.trans hu.isInfix)⟩

/-! ## What the rules of Mdx find -/

theorem atImport_eq_false (h : t.Plain) : HostCode.atImport t = false := by
  unfold HostCode.atImport
  split
  · rfl
  · next hfound => exact absurd ⟨[], [], by simpa using (strip?_eq_some.1 hfound).symm⟩ h.word
  · next c rest hfound =>
    exact absurd ⟨[], c :: rest, by simpa using (strip?_eq_some.1 hfound).symm⟩ h.word

/-- In front of a character that could open an element there is no angle bracket. -/
theorem Text.Plain.opensElement_eq_false {c : Char} (h : Text.Plain ('<' :: c :: t)) :
    opensElement c = false := by
  obtain ⟨hletter, hbracket⟩ := (List.isChain_cons_cons.1 h.bracket).1 rfl
  simp [opensElement, hletter, hbracket]

/-- **A run of text ends at the same places** in both dialects. -/
theorem atTextEnd_eq (h : t.Plain) : atTextEnd .mdx t = atTextEnd .markdown t := by
  cases t with
  | nil => rfl
  | cons c t =>
    have hbrace : (c == '{') = false :=
      beq_eq_false_iff_ne.2 fun hc => h.brace (hc ▸ List.mem_cons_self)
    have helement : (c == '<' && t.head?.any opensElement) = false := by
      cases t with
      | nil => simp
      | cons d t =>
        by_cases hc : c = '<'
        · subst hc
          simp [h.opensElement_eq_false]
        · simp [hc]
    simp only [atTextEnd, hbrace, helement, Bool.or_false, Bool.and_false]

/-- Two ways to stop that agree wherever one may come to stop at the same place. -/
theorem Text.seek_congr {stop stop' : Text → Bool} (h : ∀ u, u <:+ t → stop u = stop' u) :
    seek stop t = seek stop' t := by
  induction t with
  | nil => rfl
  | cons c t ih =>
    rw [seek, seek, h _ (List.suffix_refl _), ih fun u hu => h u (hu.trans (List.suffix_cons c t))]

namespace Memory

variable {m : Memory} {before : Option Char}

theorem scanImport?_eq_none (h : t.Plain) : m.scanImport? t = none := by
  rw [scanImport?, atImport_eq_false h]
  rfl

theorem scanHostCode?_eq_none (h : t.Plain) : m.scanHostCode? t = none := by
  unfold scanHostCode?
  split
  · exact absurd List.mem_cons_self h.brace
  · rw [h.opensElement_eq_false]
    rfl
  · rfl

theorem scanText_eq (h : t.Plain) : m.scanText .mdx t = m.scanText .markdown t := by
  unfold scanText
  rw [atTextEnd_eq h, Text.seek_congr fun u hu => atTextEnd_eq (h.suffix hu)]

theorem scanLineStart_eq (h : t.Plain) : m.scanLineStart .mdx t = m.scanLineStart .markdown t := by
  unfold scanLineStart
  split
  · rfl
  · rw [if_pos rfl, if_neg (by decide), scanImport?_eq_none h, scanHostCode?_eq_none h,
      scanText_eq h]
    rfl

theorem scanInline_eq (h : t.Plain) : m.scanInline .mdx t = m.scanInline .markdown t := by
  unfold scanInline
  split
  · rfl
  · split
    · rfl
    · rw [if_pos rfl, if_neg (by decide), scanHostCode?_eq_none h, scanText_eq h]
      rfl

/-- **A step** in front of a plain text is the same in both dialects. -/
theorem step_eq (h : t.Plain) : m.step .mdx before t = m.step .markdown before t := by
  cases t with
  | nil => rfl
  | cons c t =>
    unfold step stepWithin
    cases m.state with
    | content =>
      dsimp only
      split
      · rfl
      · split
        · rfl
        · exact scanLineStart_eq h
    | inlineContent => exact scanInline_eq h
    | _ => rfl

theorem settle_eq (h : t.Plain) (n : Nat) (m : Memory) :
    settle .mdx before t n m = settle .markdown before t n m := by
  induction n generalizing m with
  | zero => rfl
  | succ n ih =>
    rw [settle, settle, step_eq h]
    split
    · exact ih _
    · rfl

end Memory

namespace Scanner

/-- The same place in a document of another dialect. -/
def inDialect (s : Scanner) (dialect : Dialect) : Scanner := { s with dialect }

variable {s : Scanner}

/-- **A request** is answered alike. -/
theorem scan_inDialect (markdown : s.dialect = .markdown) (h : s.rest.Plain) :
    (s.inDialect .mdx).scan = (s.scan.1, s.scan.2.inDialect .mdx) := by
  have hsettle : Memory.settle .mdx s.before s.rest 3 s.memory
      = Memory.settle s.dialect s.before s.rest 3 s.memory := by
    rw [markdown]
    exact Memory.settle_eq h 3 s.memory
  unfold scan inDialect
  dsimp only
  rw [hsettle]
  split <;> rfl

/-- All requests are answered alike. -/
theorem after_inDialect (markdown : s.dialect = .markdown) (h : s.rest.Plain) (n : Nat) :
    (s.inDialect .mdx).after n = (s.after n).inDialect .mdx := by
  induction n generalizing s with
  | zero => rfl
  | succ n ih =>
    have hrest : s.scan.2.rest <:+ s.rest := ⟨s.scan.1.lexeme, s.scan_reads.symm⟩
    rw [after, after, scan_inDialect markdown h]
    exact ih (s.scan_dialect.trans markdown) (h.suffix hrest)

theorem tokensIn_inDialect (markdown : s.dialect = .markdown) (h : s.rest.Plain) (fuel : Nat) :
    (s.inDialect .mdx).tokensIn fuel = s.tokensIn fuel := by
  induction fuel generalizing s with
  | zero => rfl
  | succ fuel ih =>
    have hrest : s.scan.2.rest <:+ s.rest := ⟨s.scan.1.lexeme, s.scan_reads.symm⟩
    unfold tokensIn
    rw [scan_inDialect markdown h]
    dsimp only
    rw [ih (s.scan_dialect.trans markdown) (h.suffix hrest)]

end Scanner

end HybridMarkup
