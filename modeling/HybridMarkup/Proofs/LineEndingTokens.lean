/-
The tokens of a document are the same whichever way its lines end.

A document without carriage returns, and the document with one in front of every line feed, have the
same tokens, with the same faults and with their boundaries at the same places. `tokenize_crlf` says
so of every document that has two kinds of tokens not at all. `Token.EscapesBreak` is a token in
which a string of host code may go over a line break behind a backslash: with the other line endings
the backslash takes the carriage return only, and the line feed cuts the string short.
`Token.EndsAtBlankLine` is an import that a blank line has ended: with the other line endings it
ends behind the carriage return of the line before. With tokens of either kind the tokens can differ
(`line_endings_matter`). With the first kind they need not, since only the kind and the characters
of the token are looked at: in a plain attribute value nothing is a string, whatever stands in it.

The two scanners are followed from token to token (`Scanner.Rewritten`). They remember the same, the
texts that are left differ in their line endings only, and so every step is the same.
-/
import HybridMarkup.Proofs.CopiedOnce
import HybridMarkup.Proofs.LineEndingSteps
import HybridMarkup.Proofs.SameFront

set_option autoImplicit false

namespace HybridMarkup

open Text HostCode

namespace Memory

variable {m m' : Memory} {dialect : Dialect} {before : Option Char} {t rest : Text}
  {kind : TokenKind} {error : Option LexError}

theorem Yields.quoted (h : m.Yields dialect before t kind error rest m') (hm : m.Quoted) :
    m'.Quoted := by
  cases h with
  | openingMark state read quote =>
    rintro mark hmark
    obtain rfl := Option.some.inj hmark
    exact quote
  | _ => exact hm

theorem Turns.quoted (h : m.Turns t m') (hm : m.Quoted) : m'.Quoted := by
  cases h with
  | noQuote state => rintro mark ⟨⟩
  | _ => exact hm

/-- What is settled on is the same. -/
theorem settle_crlf (hr : '\r' ∉ t) (ht : t ≠ []) (quoted : m.Quoted) (n : Nat)
    (steady : (settle dialect before t n m).Steady t) :
    settle dialect before (crlf t) n m = (settle dialect before t n m).crlf := by
  induction n generalizing m with
  | zero => rfl
  | succ n ih =>
    unfold settle at steady ⊢
    have hobeys : (m.step dialect before t).Obeys dialect before m t := step_obeys ht
    cases hstep : m.step dialect before t with
    | token kind error rest m' =>
      rw [hstep] at steady
      rw [step_crlf hr quoted before (by rw [hstep]; exact steady), hstep]
      rfl
    | turn m' =>
      rw [hstep] at steady hobeys
      rw [step_crlf hr quoted before (by rw [hstep]; trivial), hstep]
      exact ih (Turns.quoted hobeys quoted) steady

end Memory

/-- The token as it is with the other line endings. -/
def Token.crlf (text : Text) (k : Token) : Token where
  kind := k.kind
  span := ⟨crlfOffset text k.span.start, crlfOffset text k.span.stop⟩
  lexeme := Text.crlf k.lexeme
  error := k.error

/-- Whether the token is of a kind that can hold host code, and has in it what would be a string
that goes over a line break behind a backslash. -/
def Token.EscapesBreak (k : Token) : Prop :=
  k.kind.holdsStrings = true ∧ HostCode.escapesBreak k.lexeme = true

/-- Whether the token is an import that has no module string and does not take all of the text,
so that a blank line has ended it. -/
def Token.EndsAtBlankLine (text : Text) (k : Token) : Prop :=
  k.kind = .importStatement ∧ k.error = some .importUnterminated ∧ k.span.stop < size text ∧
    ∀ c ∈ k.lexeme, c ≠ '\'' ∧ c ≠ '"'

instance (k : Token) : Decidable k.EscapesBreak :=
  inferInstanceAs (Decidable (_ ∧ _))

instance (text : Text) (k : Token) : Decidable (k.EndsAtBlankLine text) :=
  inferInstanceAs (Decidable (_ ∧ _ ∧ _ ∧ _))

namespace Scanner

/-- The place of a scanner, in the text with the other line endings. -/
structure Rewritten (text : Text) (s s' : Scanner) : Prop where
  dialect_eq : s'.dialect = s.dialect
  offset_eq : s'.offset = crlfOffset text s.offset
  before_eq : s'.before = s.before
  memory_eq : s'.memory = s.memory
  rest_eq : s'.rest = crlf s.rest

variable {dialect : Dialect} {text : Text} {s s' : Scanner}

theorem quoted_scan (h : s.memory.Quoted) : s.scan.2.memory.Quoted := by
  by_cases hrest : s.rest = []
  · rw [scan_at_end hrest]
    exact h
  · obtain ⟨m, kind, error, rest, m', hturns, hyields, hscan⟩ := scan_before_end hrest
    have hm : m.Quoted := hturns.keeps (fun _ _ hm hturn => hturn.quoted hm) h
    rw [hscan]
    exact hyields.quoted hm

/-- What is taken is rewritten, and so is the place behind it. -/
theorem Rewritten.take {rest : Text} (h : Rewritten text s s') (hwithin : s.Within text)
    (hrest : rest <:+ s.rest) (kind : TokenKind) (error : Option LexError) (m : Memory) :
    (s'.take kind error (crlf rest) m).1 = (s.take kind error rest m).1.crlf text ∧
      Rewritten text (s.take kind error rest m).2 (s'.take kind error (crlf rest) m).2 := by
  obtain ⟨part, hpart⟩ := hrest
  obtain ⟨read, htext, hoffset, _⟩ := hwithin
  have hrest' : s'.rest = crlf part ++ crlf rest := by rw [h.rest_eq, ← hpart, crlf_append]
  have hstart : s'.offset = size (crlf read) := by
    rw [h.offset_eq, hoffset, htext, crlfOffset_append]
  have hstop : crlfOffset text (s.offset + size part) = s'.offset + size (crlf part) := by
    rw [hstart, hoffset, htext, ← hpart, ← List.append_assoc, ← size_append, crlfOffset_append,
      crlf_append, size_append]
  rw [take_of_append hpart.symm, take_of_append hrest']
  refine ⟨?_, h.dialect_eq, hstop.symm, ?_, rfl, rfl⟩
  · rw [Token.crlf]
    dsimp only [Span.ofLength]
    rw [hstop, h.offset_eq]
  · dsimp only
    rw [h.before_eq, getLast?_crlf]

/-- A token that is neither of the two exceptions is read steadily. -/
theorem Within.steady {kind : TokenKind} {error : Option LexError} {rest : Text} {m : Memory}
    (h : s.Within text) (hrest : rest <:+ s.rest)
    (hstring : ¬ (s.take kind error rest m).1.EscapesBreak)
    (hline : ¬ (s.take kind error rest m).1.EndsAtBlankLine text) :
    (Move.token kind error rest m).Steady s.rest := by
  refine ⟨fun hkind => ?_, fun hkind herror hne => ?_⟩
  · exact Bool.eq_false_iff.2 fun hescapes => hstring ⟨hkind, hescapes⟩
  obtain ⟨part, hpart⟩ := hrest
  obtain ⟨read, htext, hoffset, _⟩ := h
  rw [take_of_append hpart.symm] at hline
  have hstop : s.offset + size part < size text := by
    rw [htext, ← hpart, size_append, size_append, hoffset]
    cases rest with
    | nil => exact absurd rfl hne
    | cons c rest =>
      have := Char.utf8Size_pos c
      simp only [size]
      omega
  rw [← hpart, before_append]
  refine Classical.byContradiction fun hquote => hline ⟨hkind, herror, hstop, fun c hc => ?_⟩
  exact not_or.1 fun hmark => hquote ⟨c, hc, hmark⟩

/-- **A request**: the token is the same but for the line endings in it and in front of it. -/
theorem Rewritten.scan (h : Rewritten text s s') (hr : '\r' ∉ text) (hwithin : s.Within text)
    (quoted : s.memory.Quoted) (hstring : ¬ s.scan.1.EscapesBreak)
    (hline : ¬ s.scan.1.EndsAtBlankLine text) :
    s'.scan.1 = s.scan.1.crlf text ∧ Rewritten text s.scan.2 s'.scan.2 := by
  by_cases hrest : s.rest = []
  · have hrest' : s'.rest = [] := by rw [h.rest_eq, hrest]; rfl
    rw [scan_at_end hrest, scan_at_end hrest', h.memory_eq]
    exact h.take hwithin List.nil_suffix .eos none s.memory
  have hr' : '\r' ∉ s.rest := by
    obtain ⟨read, htext, _⟩ := hwithin
    exact not_mem_of_suffix hr ⟨read, htext.symm⟩
  have hrank : s.memory.state.rank < 3 := Nat.lt_succ_of_le (Memory.rank_le_two _)
  obtain ⟨m₁, kind, error, rest, m, _, hyields, hsettle⟩ :=
    Memory.settle_obeys s.dialect s.before hrest hrank
  have hsuffix := hyields.suffix hrest
  have hscan : s.scan = s.take kind error rest m := by
    unfold Scanner.scan
    rw [hsettle]
  rw [hscan] at hstring hline ⊢
  have hsteady : (Move.token kind error rest m).Steady s.rest :=
    hwithin.steady hsuffix hstring hline
  have hsettle' : Memory.settle s'.dialect s'.before s'.rest 3 s'.memory
      = .token kind error (crlf rest) m := by
    rw [h.dialect_eq, h.before_eq, h.rest_eq, h.memory_eq,
      Memory.settle_crlf hr' hrest quoted 3 (by rw [hsettle]; exact hsteady), hsettle]
    rfl
  have hscan' : s'.scan = s'.take kind error (crlf rest) m := by
    unfold Scanner.scan
    rw [hsettle']
  rw [hscan']
  exact h.take hwithin hsuffix kind error m

/-- **A run.** -/
theorem Rewritten.tokensIn (h : Rewritten text s s') (hr : '\r' ∉ text) (hwithin : s.Within text)
    (quoted : s.memory.Quoted) (fuel : Nat)
    (hstring : ∀ k ∈ s.tokensIn fuel, ¬ k.EscapesBreak)
    (hline : ∀ k ∈ s.tokensIn fuel, ¬ k.EndsAtBlankLine text) :
    s'.tokensIn fuel = (s.tokensIn fuel).map (Token.crlf text) := by
  induction fuel generalizing s s' with
  | zero => rfl
  | succ fuel ih =>
    unfold Scanner.tokensIn at hstring hline ⊢
    dsimp only at hstring hline ⊢
    have hhere : s.scan.1 ∈ (if s.scan.1.kind = .eos then [s.scan.1]
        else s.scan.1 :: s.scan.2.tokensIn fuel) := by
      split <;> exact List.mem_cons_self
    obtain ⟨htoken, hnext⟩ := h.scan hr hwithin quoted (hstring _ hhere) (hline _ hhere)
    have hkind : s'.scan.1.kind = s.scan.1.kind := by rw [htoken]; rfl
    rw [hkind]
    by_cases heos : s.scan.1.kind = .eos
    · rw [if_pos heos, if_pos heos, htoken]
      rfl
    · rw [if_neg heos] at hstring hline
      rw [if_neg heos, if_neg heos, List.map_cons, htoken]
      congr 1
      exact ih hnext hwithin.scan (quoted_scan quoted)
        (fun k hk => hstring k (List.mem_cons_of_mem _ hk))
        fun k hk => hline k (List.mem_cons_of_mem _ hk)

/-- More tokens than there are up to the end of the text are not listed. -/
theorem tokensIn_congr {n fuel fuel' : Nat} (hn : n < fuel) (hn' : n < fuel')
    (h : (s.after n).scan.1.kind = .eos) : s.tokensIn fuel = s.tokensIn fuel' := by
  induction fuel generalizing fuel' n s with
  | zero => exact absurd hn (Nat.not_lt_zero _)
  | succ fuel ih =>
    cases fuel' with
    | zero => exact absurd hn' (Nat.not_lt_zero _)
    | succ fuel' =>
      unfold Scanner.tokensIn
      dsimp only
      by_cases heos : s.scan.1.kind = .eos
      · rw [if_pos heos, if_pos heos]
      · cases n with
        | zero => exact absurd h heos
        | succ n =>
          rw [if_neg heos, if_neg heos,
            ih (Nat.lt_of_succ_lt_succ hn) (Nat.lt_of_succ_lt_succ hn') h]

/-- **The tokens are the same whichever way the lines end.** The end of the text is to be reached,
no string is to go over a line break behind a backslash, and no blank line is to have ended an
unfinished import; then kinds and faults are the same, and every boundary is at the same place. -/
theorem tokenize_crlf (dialect : Dialect) (text : Text) (unix : '\r' ∉ text)
    (ends : ReachesEnd dialect text)
    (strings : ∀ k ∈ tokenize dialect text, ¬ k.EscapesBreak)
    (imports : ∀ k ∈ tokenize dialect text, ¬ k.EndsAtBlankLine text) :
    tokenize dialect (crlf text) = (tokenize dialect text).map (Token.crlf text) := by
  obtain ⟨n, hn, heos⟩ := eos_reached dialect text ends.not_stalls
  have hlimit : tokenLimit text ≤ tokenLimit (crlf text) := by
    have := size_le_crlf text
    unfold tokenLimit
    omega
  -- the rewritten text is longer, and so is the list that could be made of it
  have htokens : tokenize dialect text = (start dialect text).tokensIn (tokenLimit (crlf text)) :=
    tokensIn_congr (Nat.lt_succ_of_le hn) (Nat.lt_of_lt_of_le (Nat.lt_succ_of_le hn) hlimit) heos
  rw [htokens] at strings imports ⊢
  have hstart : Rewritten text (start dialect text) (start dialect (crlf text)) :=
    ⟨rfl, (crlfOffset_append [] text).symm, rfl, rfl, rfl⟩
  refine hstart.tokensIn unix (start_within dialect text) ?_ _ strings imports
  rintro mark ⟨⟩

/-- An import with its module string, and a template literal in which a backslash stands in front of
a line break. -/
theorem tokenize_crlf_template_literal :
    let text := "import 'a'\n\n\x7b\x60\\\n\x60\x7d\nb".toList
    '\r' ∉ text ∧ ReachesEnd .mdx text ∧
      (∀ k ∈ tokenize .mdx text, ¬ k.EscapesBreak ∧ ¬ k.EndsAtBlankLine text) ∧
      tokenize .mdx (crlf text) = (tokenize .mdx text).map (Token.crlf text) := by
  intro text
  have unix : '\r' ∉ text := by decide +kernel
  have ends : ReachesEnd .mdx text := ⟨5, by decide +kernel⟩
  have steady : ∀ k ∈ tokenize .mdx text, ¬ k.EscapesBreak ∧ ¬ k.EndsAtBlankLine text := by
    decide +kernel
  exact ⟨unix, ends, steady,
    tokenize_crlf .mdx text unix ends (fun k hk => (steady k hk).1) fun k hk => (steady k hk).2⟩

/-- Behind an import that a blank line has ended there is a string that goes over a line break
behind a backslash. With the other line endings the import ends one byte too late, and the
expression around the string is not closed. -/
theorem line_endings_matter :
    let text := "import a\n\n\x7b'\\\n'\x7d".toList
    '\r' ∉ text ∧ ReachesEnd .mdx text ∧
      ((tokenize .mdx text).map Token.error = [some .importUnterminated, none, none, none] ∧
        (tokenize .mdx (crlf text)).map Token.error
          = [some .importUnterminated, none, some .expressionUnterminated, none]) ∧
      ((tokenize .mdx text).map (fun k => (k.crlf text).span.start) = [0, 8, 12, 19] ∧
        (tokenize .mdx (crlf text)).map (fun k => k.span.start) = [0, 9, 12, 19]) :=
  ⟨by decide +kernel, ⟨3, by decide +kernel⟩, by decide +kernel, by decide +kernel⟩

end Scanner

end HybridMarkup
