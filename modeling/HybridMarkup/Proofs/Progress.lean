/-
Every request is answered, and where the answers come to an end.

Three steps are enough for a token, however many one would allow, and within a step no reader of
host code can run in a circle: its rounds have one solution only. Two kinds of token take nothing
of the document. A missing bracket is one, and behind it a token follows that does take something;
so the length of what is left, counted twice, and a unit for standing elsewhere than in the content
of the document make a measure (`Scanner.weight`) that every other token lowers. The second kind is
the value without quotes at a blank that markup does not take for space. There the scanner stays
for ever.
-/
import HybridMarkup.Proofs.ScannerRuns

set_option autoImplicit false

namespace HybridMarkup

open Text

/-! ## The value that stands still -/

theorem isBlank_ne {c d : Char} (h : isBlank c = true) (hd : isBlank d = false) : c ≠ d := by
  rintro rfl
  rw [h] at hd
  simp at hd

theorem Text.length_le_size (t : Text) : t.length ≤ size t := by
  induction t with
  | nil => exact Nat.le_refl _
  | cons c t ih =>
    have := Char.utf8Size_pos c
    simp only [List.length_cons, size]
    omega

namespace Memory

variable {dialect : Dialect} {before : Option Char} {m : Memory} {c : Char} {u : Text}

theorem step_at_blank (state : m.state = .value) (mark : m.valueMark = none)
    (blank : isBlank c = true) (space : isSpace c = false) :
    m.step dialect before (c :: u) = .plain .attributeValue (c :: u) m := by
  -- a blank is none of the characters that have a rule of their own
  have hbracket : c ≠ '>' := isBlank_ne blank (by decide)
  have hslash : c ≠ '/' := isBlank_ne blank (by decide)
  have hend : atUnquotedEnd (c :: u) = true := by
    unfold atUnquotedEnd
    split
    · rfl
    · next heq =>
      obtain ⟨rfl, rfl⟩ := List.cons.inj heq
      simp [blank]
    · next heq => simp at heq
  simp only [step, stepWithin, state, scanValue, mark, scanUnquotedValue, passWhile?, space,
    Bool.false_eq_true, if_false]
  split
  · next heq => exact absurd (List.cons.inj heq).1 hbracket
  · next heq => exact absurd (List.cons.inj heq).1 hslash
  · simp [seek, hend]

theorem step_before_blank (state : m.state = .beforeValue) (blank : isBlank c = true)
    (space : isSpace c = false) :
    m.step dialect before (c :: u) = .turn { m with valueMark := none, state := .value } := by
  have hdouble : c ≠ '"' := isBlank_ne blank (by decide)
  have hsingle : c ≠ '\'' := isBlank_ne blank (by decide)
  simp only [step, stepWithin, state, scanBeforeValue, passWhile?, space, Bool.false_eq_true,
    if_false]
  split
  · next heq => exact absurd (List.cons.inj heq).1 hdouble
  · next heq => exact absurd (List.cons.inj heq).1 hsingle
  · rfl

/-- The context of values is entered from the equals sign only. -/
theorem TurnsTo.value {t : Text} {m m₁ : Memory} (h : TurnsTo t m m₁) (state : m₁.state = .value) :
    m₁ = m ∨ m.state = .beforeValue := by
  induction h with
  | refl m => exact .inl rfl
  | step turn _ ih =>
    rcases ih state with rfl | hbefore
    · cases turn with
      | noQuote hstate => exact .inr hstate
      | noValue _ | valueEnds _ _ | noStartName _ | noEndName _ | noBody _ =>
        simp [goto] at state
    · cases turn <;> simp [goto] at hbefore

end Memory

namespace Scanner

/-- The next answer is a value of no characters. -/
def Stalls (s : Scanner) : Prop := s.scan.1.kind = .attributeValue ∧ s.scan.1.lexeme = []

/-- The scanner is about to read a value without quotes, and stands at a blank that markup does not
take for space. -/
def BeforeBlankValue (s : Scanner) : Prop :=
  (s.state = .beforeValue ∨ s.state = .value ∧ s.memory.valueMark = none) ∧
    ∃ c rest, s.rest = c :: rest ∧ isBlank c = true ∧ isSpace c = false

theorem scan_before_blank {s : Scanner} (h : s.BeforeBlankValue) :
    s.scan = s.take .attributeValue none s.rest
      { s.memory with valueMark := none, state := .value } := by
  obtain ⟨hstate, c, rest, hrest, blank, space⟩ := h
  have hsettle : Memory.settle s.dialect s.before s.rest 3 s.memory
      = .plain .attributeValue s.rest { s.memory with valueMark := none, state := .value } := by
    rw [hrest]
    rcases hstate with state | ⟨state, mark⟩
    · rw [Memory.settle, Memory.step_before_blank state blank space]
      dsimp only
      rw [Memory.settle, Memory.step_at_blank rfl rfl blank space]
      rfl
    · rw [Memory.settle, Memory.step_at_blank state mark blank space, ← state, ← mark]
      rfl
  unfold scan
  rw [hsettle]
  rfl

/-- An answer without characters is the end of the text, a missing bracket, or a value that stands
still. -/
theorem lexeme_eq_nil_cases {s : Scanner} (h : s.scan.1.lexeme = []) :
    s.rest = [] ∨ Memory.MissesBracket s.scan.1.kind s.scan.1.error ∨ s.BeforeBlankValue := by
  by_cases ht : s.rest = []
  · exact .inl ht
  · obtain ⟨m, kind, error, rest, m', hturns, hyields, hscan⟩ := scan_before_end ht
    rw [hscan] at h ⊢
    have hreads := take_reads (hyields.suffix ht) kind error m'
    rw [h, List.nil_append] at hreads
    rcases hyields.advances ht with hadv | ⟨_, hmiss, _⟩ | ⟨_, _, _, state, mark, hblank⟩
    · have := hadv.shorter
      rw [hreads] at this
      exact absurd this (Nat.lt_irrefl _)
    · exact .inr (.inl hmiss)
    · refine .inr (.inr ⟨?_, hblank⟩)
      rcases hturns.value state with rfl | hbefore
      · exact .inr ⟨state, mark⟩
      · exact .inl hbefore

/-- **A value stands still exactly** where it has no quotes and begins at a blank that markup does
not take for space. -/
theorem stalls_iff (s : Scanner) : s.Stalls ↔ s.BeforeBlankValue := by
  constructor
  · rintro ⟨hkind, hlexeme⟩
    rcases lexeme_eq_nil_cases hlexeme with ht | ⟨hmiss, _⟩ | h
    · rw [(scan_kind_eq_eos_iff s).2 ht] at hkind
      simp at hkind
    · rw [hkind] at hmiss
      simp at hmiss
    · exact h
  · intro h
    rw [Stalls, scan_before_blank h]
    exact ⟨rfl, by simp [take, Text.before]⟩

theorem Stalls.scan {s : Scanner} (h : s.Stalls) :
    s.scan.2.Stalls ∧ s.scan.2.offset = s.offset := by
  rw [stalls_iff] at h ⊢
  obtain ⟨c, rest, hrest, hblank⟩ := h.2
  rw [scan_before_blank h]
  exact ⟨⟨.inr ⟨rfl, rfl⟩, c, rest, hrest, hblank⟩, by simp [take, Text.before, size]⟩

/-- Where a value stands still, it does so for ever. -/
theorem Stalls.after {s : Scanner} (h : s.Stalls) (k : Nat) : (s.after k).scan.1 = s.scan.1 := by
  have hkeep : (s.after k).Stalls ∧ (s.after k).offset = s.offset := by
    refine after_keeps (P := fun s' => s'.Stalls ∧ s'.offset = s.offset) ?_ ⟨h, rfl⟩ k
    rintro s' ⟨hstalls, hoffset⟩
    exact ⟨hstalls.scan.1, hstalls.scan.2.trans hoffset⟩
  rw [scan_before_blank ((stalls_iff _).1 hkeep.1), scan_before_blank ((stalls_iff _).1 h)]
  simp [take, Text.before, size, hkeep.2]

/-! ## The measure of everything else -/

/-- What is left of the text, counted twice, and a unit outside of the content of the document. -/
def weight (s : Scanner) : Nat := 2 * s.rest.length + if s.state = .content then 0 else 1

/-- Every answer in front of the end lowers the measure, unless it is a value that stands still. -/
theorem weight_scan_lt {s : Scanner} (ht : s.rest ≠ []) (hs : ¬ s.Stalls) :
    s.scan.2.weight < s.weight := by
  obtain ⟨m, kind, error, rest, m', hturns, hyields, hscan⟩ := scan_before_end ht
  rcases hyields.advances ht with hadv | ⟨hrest, _, hrank, hne, hcontent⟩ |
      ⟨hrest, _, _, state, mark, hblank⟩
  · have hlt := hadv.shorter
    have hrest : s.scan.2.rest = rest := by rw [hscan]; rfl
    unfold weight
    rw [hrest]
    split <;> split <;> omega
  · have hstate : s.state ≠ .content := by
      intro h
      have hm : m = s.memory := by
        refine hturns.eq_of_rank ?_
        rw [show s.memory.state = .content from h]
        rfl
      rw [hm] at hne
      exact hne h
    have hafter : s.scan.2.state = .content ∧ s.scan.2.rest = s.rest := by
      rw [hscan, ← hrest]
      exact ⟨hcontent, rfl⟩
    unfold weight
    rw [hafter.1, hafter.2, if_pos rfl, if_neg hstate]
    omega
  · refine absurd ((stalls_iff s).2 ⟨?_, hblank⟩) hs
    rcases hturns.value state with rfl | hbefore
    · exact .inr ⟨state, mark⟩
    · exact .inl hbefore

theorem weight_after_add_le {s : Scanner} (n : Nat)
    (h : ∀ k, k < n → (s.after k).rest ≠ [] ∧ ¬ (s.after k).Stalls) :
    (s.after n).weight + n ≤ s.weight := by
  induction n with
  | zero => exact Nat.le_refl _
  | succ n ih =>
    have hn := h n (Nat.lt_succ_self n)
    have hlt := weight_scan_lt hn.1 hn.2
    have hle := ih fun k hk => h k (Nat.lt_succ_of_lt hk)
    rw [after_succ]
    omega

/-! ## Behind a missing bracket -/

/-- In the content of a document every answer has characters. -/
theorem lexeme_ne_nil_of_content {s : Scanner} (ht : s.rest ≠ []) (state : s.state = .content) :
    s.scan.1.lexeme ≠ [] := by
  intro hlexeme
  obtain ⟨m, kind, error, rest, m', hturns, hyields, hscan⟩ := scan_before_end ht
  have hm : m = s.memory := by
    refine hturns.eq_of_rank ?_
    rw [show s.memory.state = .content from state]
    rfl
  subst hm
  have hreads := take_reads (hyields.suffix ht) kind error m'
  rw [← hscan, hlexeme, List.nil_append, hscan] at hreads
  rcases hyields.advances ht with hadv | ⟨_, _, _, hne, _⟩ | ⟨_, _, _, hvalue, _⟩
  · have hlt := hadv.shorter
    rw [show rest = s.rest from hreads.symm] at hlt
    exact Nat.lt_irrefl _ hlt
  · exact hne state
  · rw [show s.memory.state = .content from state] at hvalue
    simp at hvalue

/-- The token of a missing bracket is empty, and the one behind it is not. -/
theorem missesBracket_scan {s : Scanner}
    (h : Memory.MissesBracket s.scan.1.kind s.scan.1.error) :
    s.scan.1.lexeme = [] ∧ s.scan.2.scan.1.lexeme ≠ [] := by
  have ht : s.rest ≠ [] := by
    intro hrest
    rw [(scan_kind_eq_eos_iff s).2 hrest] at h
    simp [Memory.MissesBracket] at h
  obtain ⟨m, kind, error, rest, m', _, hyields, hscan⟩ := scan_before_end ht
  rw [hscan] at h
  obtain ⟨hrest, hcontent⟩ := hyields.of_missesBracket h
  subst hrest
  constructor
  · rw [hscan]
    simp [take, Text.before]
  · have hnext : s.scan.2.rest ≠ [] ∧ s.scan.2.state = .content := by
      rw [hscan]
      exact ⟨ht, hcontent⟩
    exact lexeme_ne_nil_of_content hnext.1 hnext.2

/-! ## All requests together -/

/-- A request is answered in three steps; a fourth would never be taken. -/
theorem settle_in_three (s : Scanner) :
    ∃ kind error rest m, ∀ steps, 3 ≤ steps →
      Memory.settle s.dialect s.before s.rest steps s.memory = .token kind error rest m := by
  have hrank := Memory.rank_le_two s.memory.state
  by_cases ht : s.rest = []
  · refine ⟨.eos, none, [], s.memory, fun steps hsteps => ?_⟩
    obtain ⟨k, rfl⟩ : ∃ k, steps = k + 1 := ⟨steps - 1, by omega⟩
    rw [ht, Memory.settle_at_end]
    rfl
  · obtain ⟨_, kind, error, rest, m, _, _, hsettle⟩ :=
      Memory.settle_obeys s.dialect s.before ht (Nat.lt_succ_of_le hrank)
    refine ⟨kind, error, rest, m, fun steps hsteps => ?_⟩
    rw [← hsettle]
    exact Memory.settle_congr s.dialect s.before ht (by omega) (by omega)

/-- Where no value stands still, the end of the text is reached. -/
theorem eos_reached (dialect : Dialect) (text : Text)
    (h : ∀ n, ¬ ((start dialect text).after n).Stalls) :
    ∃ n, n ≤ 2 * size text ∧ ((start dialect text).after n).scan.1.kind = .eos := by
  -- otherwise the measure would go down more often than it can
  refine Classical.byContradiction fun hnone => ?_
  have hrest (n : Nat) (hn : n ≤ 2 * size text) : ((start dialect text).after n).rest ≠ [] :=
    fun hnil => hnone ⟨n, hn, (scan_kind_eq_eos_iff _).2 hnil⟩
  have hle := weight_after_add_le (s := start dialect text) (2 * size text + 1)
    fun k hk => ⟨hrest k (Nat.le_of_lt_succ hk), h k⟩
  have hstart : (start dialect text).weight = 2 * text.length := rfl
  have hlength := text.length_le_size
  omega

/-- **Every request is answered, and what becomes of all of them.** However many requests were made
before, three steps answer the next one. The answer has characters unless it is the end of the
text, a missing bracket, behind which there is a token with characters, or a value that stands
still; and that happens just where a value without quotes begins at a blank that markup does not
take for space. If it never happens, the end is reached in at most twice as many requests as the
text has bytes, and one more; once it has happened the same answer is given for ever. The readers
of host code that a step runs are the only functions that go by their rounds, so none of them runs
in a circle. -/
theorem scan_terminates (dialect : Dialect) (text : Text) :
    let first := start dialect text
    (∀ n,
      let s := first.after n
      (∃ kind error rest m, ∀ steps, 3 ≤ steps →
        Memory.settle s.dialect s.before s.rest steps s.memory = .token kind error rest m) ∧
      (s.scan.1.lexeme = [] →
        s.scan.1.kind = .eos ∨ Memory.MissesBracket s.scan.1.kind s.scan.1.error ∨ s.Stalls) ∧
      (Memory.MissesBracket s.scan.1.kind s.scan.1.error →
        s.scan.1.lexeme = [] ∧ s.scan.2.scan.1.lexeme ≠ []) ∧
      (s.Stalls ↔ s.BeforeBlankValue) ∧
      (s.Stalls → ∀ k, (s.after k).scan.1 = s.scan.1 ∧ (s.after k).scan.1.kind ≠ .eos)) ∧
    ((∀ n, ¬ (first.after n).Stalls) →
      ∃ n, n ≤ 2 * size text ∧ (first.after n).scan.1.kind = .eos) ∧
    (∀ template upTo, HostCode.GoesByRounds template upTo ↔
      template = HostCode.skipTemplate ∧ upTo = HostCode.skipUntil) ∧
    (∀ next : HostCode.JsxPlace → Nat → Text → Option Text,
      (∀ place around t, next place around t = HostCode.jsxRound next place around t) ↔
        ∀ place around t,
          next place around t = HostCode.skipJsxIn (t.length + 1) place around t) ∧
    (∀ (e : RawElement) (next : Text → Text),
      (∀ t, next t = e.bodyRound next t) ↔ next = e.skipBody) := by
  intro first
  refine ⟨fun n => ?_, eos_reached dialect text, fun _ _ => HostCode.goesByRounds_iff,
    fun _ => HostCode.eq_jsxRound_iff, fun e _ => RawElement.eq_bodyRound_iff e⟩
  intro s
  refine ⟨settle_in_three s, ?_, missesBracket_scan, stalls_iff s, fun h k => ?_⟩
  · intro hlexeme
    rw [scan_kind_eq_eos_iff, stalls_iff]
    exact lexeme_eq_nil_cases hlexeme
  · rw [h.after k, h.1]
    exact ⟨rfl, by decide⟩

end Scanner

end HybridMarkup
