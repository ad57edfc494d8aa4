/-
Runs of the scanner.

A request for a token is answered in at most three steps, since the contexts that turn to another
one without reading can be ranked (`ScannerState.rank`) and every turn goes down. With the rules of
the single step this gives the shape of a request: at the end of the text it yields the empty `eos`,
and before the end it follows one rule in a context the scanner has turned to
(`Scanner.scan_before_end`).

The rest of the file is about many requests. `Scanner.Within` is the invariant of a run, that the
scanner stands between what it has read and what is left; it is kept by every request, and it is
what turns statements about texts into statements about offsets.
-/
import HybridMarkup.Proofs.ScannerRules

set_option autoImplicit false

namespace HybridMarkup

open Text

/-! ## Turning and settling -/

/-- How many more turns a context can take: none where every step yields a token. -/
def ScannerState.rank : ScannerState → Nat
  | .beforeValue => 2
  | .attributeNamed | .value | .startTagName | .endTagName | .scriptBody | .styleBody => 1
  | _ => 0

namespace Memory

variable {dialect : Dialect} {before : Option Char} {m : Memory} {t : Text}

theorem Turns.rank_lt {m' : Memory} (h : m.Turns t m') : m'.state.rank < m.state.rank := by
  cases h with
  | noBody state => rcases state with state | state <;> simp [goto, state, ScannerState.rank]
  | noValue state | noQuote state | valueEnds state _ | noStartName state | noEndName state =>
    simp [goto, state, ScannerState.rank]

theorem rank_le_two (state : ScannerState) : state.rank ≤ 2 := by
  cases state <;> decide

/-- The memories the scanner passes through in front of one text. -/
inductive TurnsTo (t : Text) : Memory → Memory → Prop where
  | refl (m : Memory) : TurnsTo t m m
  | step {m m₁ m₂ : Memory} (turn : m.Turns t m₁) (onward : TurnsTo t m₁ m₂) : TurnsTo t m m₂

/-- A context that cannot turn is the one that was turned to. -/
theorem TurnsTo.eq_of_rank {m₁ : Memory} (h : TurnsTo t m m₁) (hrank : m.state.rank = 0) :
    m₁ = m := by
  cases h with
  | refl => rfl
  | step turn _ =>
    have := turn.rank_lt
    omega

/-- What every turn keeps is kept by all of them together. -/
theorem TurnsTo.keeps {P : Memory → Prop} {m₁ : Memory} (h : TurnsTo t m m₁)
    (keep : ∀ m m', P m → m.Turns t m' → P m') (hm : P m) : P m₁ := by
  induction h with
  | refl m => exact hm
  | step turn _ ih => exact ih (keep _ _ hm turn)

/-- **A token is settled on once there are more steps than the context has turns**, and it follows
a rule in a context that was turned to. -/
theorem settle_obeys (dialect : Dialect) (before : Option Char) (ht : t ≠ []) {steps : Nat}
    (h : m.state.rank < steps) :
    ∃ m₁ kind error rest m', TurnsTo t m m₁ ∧ m₁.Yields dialect before t kind error rest m' ∧
      settle dialect before t steps m = .token kind error rest m' := by
  induction steps generalizing m with
  | zero => exact absurd h (Nat.not_lt_zero _)
  | succ steps ih =>
    have hstep : (m.step dialect before t).Obeys dialect before m t := step_obeys ht
    unfold settle
    cases hmove : m.step dialect before t with
    | token kind error rest m' =>
      rw [hmove] at hstep
      exact ⟨m, kind, error, rest, m', .refl m, hstep, rfl⟩
    | turn m' =>
      rw [hmove] at hstep
      have hlt := Turns.rank_lt hstep
      -- a turn goes down in rank, so the steps that are left suffice for what is left of the turns
      obtain ⟨m₁, kind, error, rest, m₂, hturns, hyields, hsettle⟩ := ih (m := m') (by omega)
      exact ⟨m₁, kind, error, rest, m₂, .step hstep hturns, hyields, hsettle⟩

theorem settle_at_end (m : Memory) (steps : Nat) :
    settle dialect before [] (steps + 1) m = .plain .eos [] m := rfl

/-- More steps than are needed make no difference. -/
theorem settle_congr (dialect : Dialect) (before : Option Char) (ht : t ≠ []) {steps steps' : Nat}
    (h : m.state.rank < steps) (h' : m.state.rank < steps') :
    settle dialect before t steps m = settle dialect before t steps' m := by
  induction steps generalizing steps' m with
  | zero => exact absurd h (Nat.not_lt_zero _)
  | succ steps ih =>
    cases steps' with
    | zero => exact absurd h' (Nat.not_lt_zero _)
    | succ steps' =>
      have hstep : (m.step dialect before t).Obeys dialect before m t := step_obeys ht
      unfold settle
      cases hmove : m.step dialect before t with
      | token kind error rest m' => rfl
      | turn m' =>
        rw [hmove] at hstep
        have hlt := Turns.rank_lt hstep
        exact ih (by omega) (by omega)

end Memory

/-! ## What a token takes of the text -/

theorem passElementName?_advances {t rest : Text} (h : passElementName? t = some rest) :
    Advances t rest := by
  unfold passElementName? at h
  split at h
  · simp at h
  · split at h
    · rw [Option.some.injEq] at h
      rw [← h]
      exact .cons (List.dropWhile_suffix _)
    · simp at h

theorem passLineBreak?_advances {t rest : Text} (h : passLineBreak? t = some rest) :
    Advances t rest := by
  unfold passLineBreak? at h
  split at h
  · rw [Option.some.injEq] at h
    exact h ▸ .cons (List.suffix_cons _ _)
  · split at h
    · rw [Option.some.injEq] at h
      exact h ▸ .cons (List.suffix_refl _)
    · simp at h
  · simp at h

theorem fence_ne_nil : fence ≠ [] := by decide

theorem afterFenceLine?_advances {t rest : Text} (h : afterFenceLine? t = some rest) :
    Advances t rest := by
  unfold afterFenceLine? at h
  split at h
  · exact .cons ((strip?_advances fence_ne_nil h).suffix.trans (List.suffix_cons _ _))
  · exact .cons (strip?_advances fence_ne_nil h).suffix
  · simp at h

namespace Memory

variable {dialect : Dialect} {before : Option Char} {m m' : Memory} {t rest : Text}
  {kind : TokenKind} {error : Option LexError}

/-- The empty token that stands for a missing bracket. -/
def MissesBracket (kind : TokenKind) (error : Option LexError) : Prop :=
  (kind = .startTagClose ∨ kind = .endTagClose) ∧ error = some .closingBracketMissing

/-- Where a value without quotes stands still: at a blank that markup does not take for space. -/
def AtBlankValue (m : Memory) (t : Text) : Prop :=
  m.state = .value ∧ m.valueMark = none ∧
    ∃ c rest, t = c :: rest ∧ isBlank c = true ∧ isSpace c = false

/-- **A token takes at least a character**, or it stands for a missing bracket, or it is a value
without quotes at a blank that markup does not take for space. -/
theorem Yields.advances (ht : t ≠ []) (h : m.Yields dialect before t kind error rest m') :
    Advances t rest ∨
      (rest = t ∧ MissesBracket kind error ∧ m.state.rank = 0 ∧ m.state ≠ .content ∧
        m'.state = .content) ∨
      (rest = t ∧ kind = .attributeValue ∧ m' = m ∧ m.AtBlankValue t) := by
  cases h with
  | startTagBroken state read =>
    exact .inr (.inl ⟨rfl, ⟨.inl rfl, rfl⟩, by rw [state]; rfl, by simp [state], rfl⟩)
  | endTagBroken state read =>
    exact .inr (.inl ⟨rfl, ⟨.inr rfl, rfl⟩, by rw [state]; rfl, by simp [state], rfl⟩)
  | unquotedValue state mark here space bracket slash =>
    subst here
    rename_i c u
    by_cases hstop : atUnquotedEnd (c :: u) = true
    -- the value ends where it begins: of its stops only a blank is not taken by another rule
    · refine .inr (.inr ⟨?_, rfl, rfl, state, mark, c, u, rfl, ?_, space⟩)
      · simp [seek, hstop]
      · unfold atUnquotedEnd at hstop
        split at hstop
        · next heq => exact absurd heq (slash _)
        · next heq =>
          obtain ⟨rfl, rfl⟩ := List.cons.inj heq
          simpa [bracket] using hstop
        · simp at hstop
    · exact .inl (seek_advances ht (by simpa using hstop))
  | space _ read | tagSpace _ read | valueSpace _ _ read | nameSpace _ read
  | fenceLineSpace _ read | codeBlockAttribute _ read | attributeName _ _ read _
  | directiveName _ _ read _ =>
    exact .inl (passWhile?_advances read)
  | paragraphEnd _ read | fenceLineEnd _ read => exact .inl (passLineBreak?_advances read)
  | startTag _ read | endTag _ read => exact .inl (passElementName?_advances read)
  | commentContent _ read | importStatement _ _ read | jsxExpression _ _ read
  | namelessStart _ read | namelessEnd _ read | rawText _ _ _ read =>
    exact .inl read
  | commentStart _ read | commentEnd _ read | codeBlockStart _ _ read | contentMustache _ _ read
  | valueMustache _ _ _ read | mustacheEnd _ read =>
    exact .inl (read ▸ advances_append (by decide))
  | closedExpression _ _ read =>
    rw [read, ← List.singleton_append (l := rest), ← List.append_assoc]
    exact .inl (advances_append (by simp))
  | openExpression _ _ read => exact .inl (nil_advances ht)
  | proseText _ read | templateText _ _ read | codeBlockContent _ _ read
  | quotedValue _ _ _ read =>
    exact .inl (seek_advances ht (by simp [read]))
  | codeBlockEnd _ read =>
    rcases read with ⟨_, read⟩ | read
    · exact .inl (read ▸ advances_append fence_ne_nil)
    · exact .inl (afterFenceLine?_advances read)
  | endTagOpen _ _ read | selfClose _ read =>
    exact .inl (read ▸ .cons (List.suffix_cons _ _))
  | startTagOpen _ _ read | startTagClose _ read | strayInStartTag _ read
  | attributeDelimiter _ read | openingMark _ read _ | closingMark _ _ read
  | endTagClose _ read | strayInEndTag _ read =>
    exact .inl (read ▸ .cons (List.suffix_refl _))
  | directiveValue _ _ _ read | mustacheContent _ read =>
    exact .inl (HostCode.skipUntil_advances ht read)

theorem Yields.suffix (ht : t ≠ []) (h : m.Yields dialect before t kind error rest m') :
    rest <:+ t := by
  rcases h.advances ht with h | ⟨rfl, _⟩ | ⟨rfl, _⟩
  · exact h.suffix
  · exact List.suffix_refl _
  · exact List.suffix_refl _

/-- A missing bracket takes nothing and leads back to the content of the document. -/
theorem Yields.of_missesBracket (h : m.Yields dialect before t kind error rest m')
    (miss : MissesBracket kind error) : rest = t ∧ m'.state = .content := by
  obtain ⟨hkind, herror⟩ := miss
  cases h <;> first | exact ⟨rfl, rfl⟩ | simp at herror | simp at hkind

/-- No rule yields the token of the end. -/
theorem Yields.kind_ne_eos (h : m.Yields dialect before t kind error rest m') : kind ≠ .eos := by
  cases h <;> decide

end Memory

/-! ## One request -/

theorem Text.before_append (part rest : Text) : Text.before (part ++ rest) rest = part := by
  simp [Text.before]

namespace Scanner

theorem scan_at_end {s : Scanner} (h : s.rest = []) : s.scan = s.take .eos none [] s.memory := by
  unfold scan
  rw [h, Memory.settle_at_end]
  rfl

/-- **Before the end of the text a request follows one rule**, in a context the scanner has turned
to. -/
theorem scan_before_end {s : Scanner} (h : s.rest ≠ []) :
    ∃ m kind error rest m', Memory.TurnsTo s.rest s.memory m ∧
      m.Yields s.dialect s.before s.rest kind error rest m' ∧
      s.scan = s.take kind error rest m' := by
  have hrank : s.memory.state.rank < 3 := Nat.lt_succ_of_le (Memory.rank_le_two _)
  obtain ⟨m, kind, error, rest, m', hturns, hyields, hsettle⟩ :=
    Memory.settle_obeys s.dialect s.before h hrank
  refine ⟨m, kind, error, rest, m', hturns, hyields, ?_⟩
  unfold scan
  rw [hsettle]

/-- What is read and what is left make up what was left before. -/
theorem take_reads {s : Scanner} {rest : Text} (h : rest <:+ s.rest) (kind : TokenKind)
    (error : Option LexError) (m : Memory) :
    s.rest = (s.take kind error rest m).1.lexeme ++ (s.take kind error rest m).2.rest := by
  obtain ⟨part, hpart⟩ := h
  simp only [take]
  rw [← hpart, Text.before_append]

theorem scan_reads (s : Scanner) : s.rest = s.scan.1.lexeme ++ s.scan.2.rest := by
  by_cases h : s.rest = []
  · rw [scan_at_end h]
    exact take_reads List.nil_suffix _ _ _
  · obtain ⟨m, kind, error, rest, m', _, hyields, hscan⟩ := scan_before_end h
    rw [hscan]
    exact take_reads (hyields.suffix h) _ _ _

/-- A request moves the offset by the size of what it reads, and the token is what lies between. -/
theorem scan_span (s : Scanner) :
    s.scan.1.span = ⟨s.offset, s.scan.2.offset⟩ ∧
      s.scan.2.offset = s.offset + size s.scan.1.lexeme := by
  unfold scan
  split <;> exact ⟨rfl, rfl⟩

theorem scan_before (s : Scanner) :
    s.scan.2.before = s.scan.1.lexeme.getLast?.or s.before := by
  unfold scan
  split <;> rfl

@[simp] theorem scan_dialect (s : Scanner) : s.scan.2.dialect = s.dialect := by
  unfold scan
  split <;> rfl

/-- The token of the end is what is read at the end, and only there. -/
theorem scan_kind_eq_eos_iff (s : Scanner) : s.scan.1.kind = .eos ↔ s.rest = [] := by
  constructor
  · intro hkind
    by_cases h : s.rest = []
    · exact h
    · obtain ⟨m, kind, error, rest, m', _, hyields, hscan⟩ := scan_before_end h
      rw [hscan] at hkind
      exact absurd hkind hyields.kind_ne_eos
  · intro h
    rw [scan_at_end h]
    rfl

/-! ## Many requests -/

/-- The scanner after a number of requests. -/
def after : Nat → Scanner → Scanner
  | 0, s => s
  | n + 1, s => after n s.scan.2

/-- The answers to a number of requests. -/
def tokens : Nat → Scanner → List Token
  | 0, _ => []
  | n + 1, s => s.scan.1 :: tokens n s.scan.2

theorem after_succ (n : Nat) (s : Scanner) : s.after (n + 1) = (s.after n).scan.2 := by
  induction n generalizing s with
  | zero => rfl
  | succ n ih => exact ih s.scan.2

theorem after_add (n k : Nat) (s : Scanner) : s.after (n + k) = (s.after n).after k := by
  induction n generalizing s with
  | zero => rw [Nat.zero_add]; rfl
  | succ n ih =>
    rw [Nat.succ_add]
    exact ih s.scan.2

/-- What every request keeps holds after any number of them. -/
theorem after_keeps {P : Scanner → Prop} (keep : ∀ s, P s → P s.scan.2) {s : Scanner} (h : P s)
    (n : Nat) : P (s.after n) := by
  induction n generalizing s with
  | zero => exact h
  | succ n ih => exact ih (keep s h)

/-- A token of a run is read by a scanner of which everything holds that every request keeps. -/
theorem exists_of_mem_tokensIn {P : Scanner → Prop} (keep : ∀ s, P s → P s.scan.2) {fuel : Nat}
    {s : Scanner} (h : P s) {t : Token} (ht : t ∈ s.tokensIn fuel) :
    ∃ s', P s' ∧ s'.scan.1 = t := by
  induction fuel generalizing s with
  | zero => exact absurd ht List.not_mem_nil
  | succ fuel ih =>
    unfold tokensIn at ht
    dsimp only at ht
    split at ht
    · exact ⟨s, h, (List.mem_singleton.1 ht).symm⟩
    · rcases List.mem_cons.1 ht with rfl | ht
      · exact ⟨s, h, rfl⟩
      · exact ih (keep s h) ht

/-- What every request keeps, together with what two readers make of the token, holds at the end of
a run. -/
theorem tokensIn_foldl {α β : Type} {f : α → Token → α} {g : β → Token → β}
    {P : Scanner → α → β → Prop}
    (keep : ∀ s a b, P s a b → P s.scan.2 (f a s.scan.1) (g b s.scan.1)) (fuel : Nat)
    {s : Scanner} {a : α} {b : β} (h : P s a b) :
    ∃ s', P s' ((s.tokensIn fuel).foldl f a) ((s.tokensIn fuel).foldl g b) := by
  induction fuel generalizing s a b with
  | zero => exact ⟨s, h⟩
  | succ fuel ih =>
    unfold tokensIn
    dsimp only
    split
    · exact ⟨s.scan.2, keep s a b h⟩
    · exact ih (keep s a b h)

/-- A run that comes to the end of the text is listed up to there. -/
theorem tokensIn_eq_tokens {n fuel : Nat} (hn : n < fuel) {s : Scanner}
    (h : (s.after n).scan.1.kind = .eos) :
    ∃ k, s.tokensIn fuel = s.tokens (k + 1) ∧ (s.after k).scan.1.kind = .eos := by
  induction fuel generalizing s n with
  | zero => exact absurd hn (Nat.not_lt_zero _)
  | succ fuel ih =>
    unfold tokensIn
    dsimp only
    split
    · next heos => exact ⟨0, rfl, heos⟩
    · next heos =>
      cases n with
      | zero => exact absurd h heos
      | succ n =>
        obtain ⟨k, htokens, hk⟩ := ih (Nat.lt_of_succ_lt_succ hn) h
        exact ⟨k + 1, by rw [htokens]; rfl, hk⟩

/-- The scanner stands in a text, between what it has read of it and what is left. -/
def Within (text : Text) (s : Scanner) : Prop :=
  ∃ read, text = read ++ s.rest ∧ s.offset = size read ∧ s.before = read.getLast?

theorem start_within (dialect : Dialect) (text : Text) : (start dialect text).Within text :=
  ⟨[], rfl, rfl, rfl⟩

theorem Within.scan {text : Text} {s : Scanner} (h : s.Within text) : s.scan.2.Within text := by
  obtain ⟨read, htext, hoffset, hbefore⟩ := h
  refine ⟨read ++ s.scan.1.lexeme, ?_, ?_, ?_⟩
  · rw [htext, List.append_assoc, ← scan_reads]
  · rw [s.scan_span.2, hoffset, size_append]
  · rw [scan_before, hbefore, List.getLast?_append]

theorem Within.boundary {text : Text} {s : Scanner} (h : s.Within text) :
    isBoundary s.offset text = true := by
  obtain ⟨read, htext, hoffset, _⟩ := h
  exact isBoundary_iff.2 ⟨read, s.rest, htext, hoffset.symm⟩

/-- The end of the text is where nothing is left. -/
theorem Within.offset_eq_size_iff {text : Text} {s : Scanner} (h : s.Within text) :
    s.offset = size text ↔ s.rest = [] := by
  obtain ⟨read, htext, hoffset, _⟩ := h
  rw [htext, hoffset, size_append]
  constructor
  · intro hsize
    cases hrest : s.rest with
    | nil => rfl
    | cons c rest =>
      have := Char.utf8Size_pos c
      rw [hrest, size] at hsize
      omega
  · intro hrest
    rw [hrest, size, Nat.add_zero]

/-- The token that is read next, as a part of the text. -/
theorem Within.token_slice {text : Text} {s : Scanner} (h : s.Within text) :
    slice text s.scan.1.span = s.scan.1.lexeme := by
  obtain ⟨read, htext, hoffset, _⟩ := h
  have hlength : s.scan.1.span.length = size s.scan.1.lexeme := by
    rw [s.scan_span.1, s.scan_span.2]
    exact Nat.add_sub_cancel_left _ _
  have hstart : s.scan.1.span.start = size read := by rw [s.scan_span.1, hoffset]
  rw [slice, hlength, hstart, htext, dropBytes_append, s.scan_reads, takeBytes_append]

end Scanner

end HybridMarkup
