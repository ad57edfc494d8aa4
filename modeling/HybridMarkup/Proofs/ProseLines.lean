/-
Lines of prose.

Two rules of prose are about where things stand in a line. A run of text ends at a construct: a line
break, the opening of a comment, in Mdx a brace or the angle bracket of an element (`EndsText`). The
scanner asks for the same constructs in two places, before it tries a text and to see where the text
ends, and both have to know all of them; otherwise there would be a character that no rule takes. That
they do is shown in `Memory.step_obeys`, and `Scanner.text_runs` says what follows for the tokens.

The other rule is that fences and imports open their line. The scanner does not look back for that:
it is in the context `content` where a line begins, and only there does it ask for a fence or an
import. But not only a line break leads into this context. A comment that was opened there leads back
to it, host code that is read there leaves the scanner in it, and so does a closing fence, all of
them somewhere in a line. What is read next is then taken for the opening of a line
(`Scanner.import_behind_expression`).

Main statements: `Scanner.text_runs` and `Scanner.opens_line_or_follows`.
-/
import HybridMarkup.Proofs.FenceEnds

set_option autoImplicit false

namespace HybridMarkup

open Text

/-! ## What ends a run of text -/

/-- The constructs at which a run of text ends. -/
inductive EndsText (dialect : Dialect) : Text → Prop where
  | lineFeed : EndsText dialect ['\n']
  | carriageReturn : EndsText dialect ['\r']
  | formFeed : EndsText dialect ['\x0c']
  | comment : EndsText dialect "<!--".toList
  | expression (mdx : dialect = .mdx) : EndsText dialect ['{']
  | element {c : Char} (mdx : dialect = .mdx) (h : c.isAlpha = true ∨ c = '>') :
      EndsText dialect ['<', c]

variable {dialect : Dialect} {text : Text}

/-- The scanner's question for the end of a text is the question for one of these constructs. -/
theorem atTextEnd_iff {t : Text} :
    atTextEnd dialect t = true ↔ ∃ k, EndsText dialect k ∧ k <+: t := by
  constructor
  · intro h
    cases t with
    | nil => simp [atTextEnd] at h
    | cons c t =>
      simp only [atTextEnd, isLineBreak, Bool.or_eq_true, Bool.and_eq_true, beq_iff_eq] at h
      rcases h with (((rfl | rfl) | rfl) | hcomment) | ⟨mdx, rfl | ⟨rfl, helement⟩⟩
      · exact ⟨_, .lineFeed, t, rfl⟩
      · exact ⟨_, .carriageReturn, t, rfl⟩
      · exact ⟨_, .formFeed, t, rfl⟩
      · obtain ⟨back, hback⟩ := startsWith_iff.1 hcomment
        exact ⟨_, .comment, back, hback.symm⟩
      · exact ⟨_, .expression mdx, t, rfl⟩
      · cases t with
        | nil => simp at helement
        | cons d t =>
          have hd : d.isAlpha = true ∨ d = '>' := by simpa [opensElement] using helement
          exact ⟨_, .element mdx hd, t, rfl⟩
  · rintro ⟨k, hk, back, rfl⟩
    cases hk with
    | lineFeed | carriageReturn | formFeed => simp [atTextEnd, isLineBreak]
    | comment =>
      have hstart : startsWith commentOpening ('<' :: ("!--".toList ++ back)) = true :=
        startsWith_iff.2 ⟨back, rfl⟩
      show atTextEnd dialect ('<' :: ("!--".toList ++ back)) = true
      rw [atTextEnd, hstart, Bool.or_true, Bool.true_or]
    | expression mdx => simp [atTextEnd, mdx]
    | @element c mdx h =>
      have hc : opensElement c = true := by simpa [opensElement] using h
      simp [atTextEnd, mdx, hc]

/-! ## Runs of text -/

/-- In a document of prose a token follows a rule in the context the scanner is in. -/
theorem Stage.Of.exists_yields {st : Stage} (h : st.Of dialect text) (hne : st.scanner.rest ≠ []) :
    ∃ kind error rest m,
      st.scanner.memory.Yields dialect st.scanner.before st.scanner.rest kind error rest m ∧
        st.scanner.scan = st.scanner.take kind error rest m := by
  obtain ⟨kind, error, rest, m, hyields, hstep⟩ :=
    h.inProse.exists_step st.scanner.dialect st.scanner.before hne
  rw [h.dialect_eq] at hyields
  exact ⟨kind, error, rest, m, hyields, Scanner.scan_eq_take hstep⟩

/-- No rule of prose yields an unknown token. -/
theorem Stage.Of.token_known {st : Stage} (h : st.Of dialect text) :
    st.scanner.scan.1.kind ≠ .unknown := by
  by_cases hnil : st.scanner.rest = []
  · rw [Scanner.scan_at_end hnil]
    exact TokenKind.noConfusion
  obtain ⟨kind, error, rest, m, hyields, hscan⟩ := h.exists_yields hnil
  have hprose := h.inProse
  rw [hscan]
  rintro (rfl : kind = .unknown)
  -- what is unknown is unknown in a tag
  cases hyields with
  | namelessStart state _ | strayInStartTag state _ | namelessEnd state _ | strayInEndTag state _ =>
    simp [Memory.InProse, state] at hprose

namespace Scanner

/-- A run of text is sought for, from a place where it does not end at once. -/
theorem scan_text {s : Scanner} (prose : s.dialect ≠ .template) (h : s.scan.1.kind = .text) :
    s.rest ≠ [] ∧ atTextEnd s.dialect s.rest = false ∧
      s.scan.2.rest = seek (atTextEnd s.dialect) s.rest := by
  have hne : s.rest ≠ [] := by
    intro hnil
    rw [scan_at_end hnil] at h
    simp [take] at h
  obtain ⟨m, kind, error, rest, m', _, hyields, hscan⟩ := scan_before_end hne
  rw [hscan] at h ⊢
  obtain rfl : kind = .text := h
  cases hyields with
  | proseText _ read => exact ⟨hne, read, rfl⟩
  | templateText _ template _ => exact absurd template prose

/-- The scanner stands behind what it has read of the text. -/
theorem Within.exists_token {s : Scanner} (h : s.Within text) :
    ∃ front, text = front ++ (s.scan.1.lexeme ++ s.scan.2.rest) ∧
      size front = s.scan.1.span.start := by
  obtain ⟨read, htext, hoffset, _⟩ := h
  refine ⟨read, ?_, ?_⟩
  · rw [← scan_reads, htext]
  · rw [s.scan_span.1, hoffset]

/-- **Text runs up to the next construct.** In a document of prose every token is a known one, and a
token of text takes at least a character. No construct begins within it, not even one that would end
behind it; and behind it there is a construct, or the end of the document. -/
theorem text_runs (prose : dialect ≠ .template) (text : Text) (n : Nat) :
    let t := ((start dialect text).after n).scan.1
    t.kind ≠ .unknown ∧
      (t.kind = .text →
        t.lexeme ≠ [] ∧ (∀ k, EndsText dialect k → ¬ k <:+: t.lexeme) ∧
        ∃ front back, text = front ++ (t.lexeme ++ back) ∧ size front = t.span.start ∧
          (∀ k u v, EndsText dialect k → t.lexeme = u ++ v → v ≠ [] → ¬ k <+: v ++ back) ∧
          (back = [] ∨ ∃ k, EndsText dialect k ∧ k <+: back)) := by
  intro t
  have hof := (Stage.of_start prose text).after n
  have hplace : ((Stage.start dialect text).after n).scanner = (start dialect text).after n :=
    Stage.scanner_after n _
  have hdialect : ((start dialect text).after n).dialect = dialect := hplace ▸ hof.dialect_eq
  have hknown := hof.token_known
  rw [hplace] at hknown
  refine ⟨hknown, fun htext => ?_⟩
  obtain ⟨hne, hnotEnd, hrest⟩ := scan_text (hdialect.symm ▸ prose) htext
  rw [hdialect] at hnotEnd hrest
  have hreads := ((start dialect text).after n).scan_reads
  obtain ⟨front, hfront, hsize⟩ := (hplace ▸ hof.within).exists_token
  -- the search would have stopped at a construct that begins within what it has passed
  have hinside (k u v : Text) (hk : EndsText dialect k) (hsplit : t.lexeme = u ++ v)
      (hv : v ≠ []) : ¬ k <+: v ++ ((start dialect text).after n).scan.2.rest := by
    intro hprefix
    have hle := length_le_seek (u := u) (by simp [hv]) (atTextEnd_iff.2 ⟨k, hk, hprefix⟩)
    rw [← List.append_assoc, ← hsplit, ← hreads, ← hrest, List.length_append] at hle
    have hpos := List.length_pos_of_ne_nil hv
    omega
  refine ⟨?_, ?_, front, _, hfront, hsize, hinside, ?_⟩
  · intro hnil
    have hshort := (seek_advances hne hnotEnd).shorter
    rw [← hrest] at hshort
    rw [show ((start dialect text).after n).scan.1.lexeme = [] from hnil, List.nil_append] at hreads
    rw [hreads] at hshort
    exact lt_irrefl _ hshort
  · rintro k hk ⟨u, v, hinner⟩
    have hkne : k ≠ [] := by cases hk <;> simp
    refine hinside k u (k ++ v) hk ?_ (by simp [hkne]) ⟨v ++ _, by rw [List.append_assoc]⟩
    rw [← hinner, List.append_assoc]
  · refine Classical.or_iff_not_imp_left.2 fun hback => ?_
    rw [hrest] at hback ⊢
    exact atTextEnd_iff.1 (seek_stops hback)

/-- Text in front of an element, and an angle bracket that opens none. -/
theorem text_runs_to_element :
    let text : Text := "a < b!\x7bc\x7d<d/>".toList
    let t := ((start .mdx text).after 0).scan.1
    (Dialect.mdx ≠ .template ∧ t.kind = .text ∧ t.lexeme = "a < b!".toList) ∧
      t.kind ≠ .unknown ∧ ∀ k, EndsText .mdx k → ¬ k <:+: t.lexeme := by
  have hprose : Dialect.mdx ≠ .template := by decide
  have hkind : ((start .mdx "a < b!\x7bc\x7d<d/>".toList).after 0).scan.1.kind = .text := by
    decide +kernel
  refine ⟨⟨hprose, hkind, by decide +kernel⟩, ?_⟩
  obtain ⟨hknown, hruns⟩ := text_runs hprose "a < b!\x7bc\x7d<d/>".toList 0
  exact ⟨hknown, (hruns hkind).2.1⟩

/-! ## The openings of lines -/

/-- The tokens that can leave the scanner in the context of a line that begins, somewhere in a
line. -/
def EndsMidLine (kind : TokenKind) : Prop :=
  kind = .commentEnd ∨ kind = .blockExpression ∨ kind = .jsxExpression ∨ kind = .importStatement ∨
    kind = .codeBlockEnd

/-- Behind this text a line is opened: the text goes up to the start of a line, and then there is
nothing in it but spaces and tabs. -/
def OpensLine (front : Text) : Prop :=
  ∃ above gap, front = above ++ gap ∧ above.getLast?.all isLineBreak = true ∧
    gap.all isLineSpace = true

/-- This text goes up to the end of one of the first `n` tokens, one that can be in the middle of a
line, and then there is nothing in it but spaces and tabs. -/
def FollowsMidLine (dialect : Dialect) (text : Text) (n : Nat) (front : Text) : Prop :=
  ∃ m, m < n ∧ EndsMidLine ((start dialect text).after m).scan.1.kind ∧
    ∃ read gap, front = read ++ gap ∧
      size read = ((start dialect text).after m).scan.1.span.stop ∧ gap.all isLineSpace = true

theorem OpensLine.append {front gap : Text} (h : OpensLine front)
    (hgap : gap.all isLineSpace = true) : OpensLine (front ++ gap) := by
  obtain ⟨above, gap', rfl, habove, hgap'⟩ := h
  exact ⟨above, gap' ++ gap, List.append_assoc .., habove, by rw [List.all_append, hgap', hgap]; rfl⟩

theorem FollowsMidLine.append {n : Nat} {front gap : Text} (h : FollowsMidLine dialect text n front)
    (hgap : gap.all isLineSpace = true) : FollowsMidLine dialect text (n + 1) (front ++ gap) := by
  obtain ⟨m, hlt, hkind, read, gap', rfl, hread, hgap'⟩ := h
  exact ⟨m, Nat.lt_succ_of_lt hlt, hkind, read, gap' ++ gap, List.append_assoc .., hread,
    by rw [List.all_append, hgap', hgap]; rfl⟩

/-- A line break, and what opens the line behind it. -/
theorem opensLine_of_break {front gap : Text} {c : Char} (hc : isLineBreak c = true)
    (hgap : gap.all isLineSpace = true) : OpensLine (front ++ c :: gap) :=
  ⟨front ++ [c], gap, by simp, by simp [hc], hgap⟩

/-- Space stays on its line, or it has a last line break. -/
theorem space_cases {w : Text} (h : w.all isSpace = true) :
    w.all isLineSpace = true ∨
      ∃ above c gap, w = above ++ c :: gap ∧ isLineBreak c = true ∧ gap.all isLineSpace = true := by
  induction w with
  | nil => exact .inl rfl
  | cons c w ih =>
    rw [List.all_cons, Bool.and_eq_true] at h
    rcases ih h.2 with hspace | ⟨above, d, gap, rfl, hd, hgap⟩
    · rcases Bool.or_eq_true_iff.1 h.1 with hc | hc
      · exact .inl (by rw [List.all_cons, hc, hspace]; rfl)
      · exact .inr ⟨[], c, w, rfl, hc, hspace⟩
    · exact .inr ⟨c :: above, d, gap, rfl, hd, hgap⟩

/-- What is read in one go of a class is of that class. -/
theorem exists_of_passWhile? {p : Char → Bool} {t rest : Text} (h : passWhile? p t = some rest) :
    ∃ part, t = part ++ rest ∧ part.all p = true := by
  cases t with
  | nil => simp [passWhile?] at h
  | cons c t =>
    by_cases hc : p c = true
    · rw [passWhile?, if_pos hc, Option.some.injEq] at h
      subst h
      refine ⟨c :: t.takeWhile p, by simp, ?_⟩
      rw [List.all_cons, hc, List.all_takeWhile]
      rfl
    · simp [passWhile?, hc] at h

/-- What is read of a line break ends with one. -/
theorem exists_of_passLineBreak? {t rest : Text} (h : passLineBreak? t = some rest) :
    ∃ part c, t = part ++ c :: rest ∧ isLineBreak c = true := by
  unfold passLineBreak? at h
  split at h
  · obtain rfl := Option.some.inj h
    exact ⟨['\r'], '\n', rfl, rfl⟩
  · next c t _ =>
    split at h
    · next hc =>
      obtain rfl := Option.some.inj h
      exact ⟨[], c, rfl, hc⟩
    · cases h
  · cases h

end Scanner

/-- **What leads to the context of a line that begins**: a token that can be in the middle of a line,
or a line break, or space within a line if the scanner is in this context already. -/
theorem Stage.Of.leads_to_content {st : Stage} (h : st.Of dialect text)
    (hnext : st.scanner.scan.2.memory.state = .content) :
    Scanner.EndsMidLine st.scanner.scan.1.kind ∨
      (∀ front, Scanner.OpensLine (front ++ st.scanner.scan.1.lexeme)) ∨
      st.scanner.memory.state = .content ∧ st.scanner.scan.1.lexeme.all isLineSpace = true := by
  by_cases hnil : st.scanner.rest = []
  · rw [Scanner.scan_at_end hnil] at hnext ⊢
    refine .inr (.inr ⟨hnext, ?_⟩)
    simp [Scanner.take, Text.before, hnil]
  obtain ⟨kind, error, rest, m, hyields, hscan⟩ := h.exists_yields hnil
  have hprose := h.inProse
  have hkind := hyields.isProse h.prose hprose
  rw [hscan] at hnext ⊢
  unfold Memory.InProse at hprose
  simp only [Scanner.take] at hnext ⊢
  cases hyields with
  | commentEnd _ _ => exact .inl (.inl rfl)
  | closedExpression _ _ _ | openExpression _ _ _ => exact .inl (.inr (.inl rfl))
  | jsxExpression _ _ _ => exact .inl (.inr (.inr (.inl rfl)))
  | importStatement _ _ _ => exact .inl (.inr (.inr (.inr (.inl rfl))))
  | codeBlockEnd _ _ => exact .inl (.inr (.inr (.inr (.inr rfl))))
  | space _ read =>
    obtain ⟨part, hpart, hspace⟩ := Scanner.exists_of_passWhile? read
    rw [hpart, Text.before_append]
    rcases Scanner.space_cases hspace with hline | ⟨above, c, gap, rfl, hc, hgap⟩
    · exact .inr (.inr ⟨hnext, hline⟩)
    · refine .inr (.inl fun front => ?_)
      rw [← List.append_assoc]
      exact Scanner.opensLine_of_break hc hgap
  | paragraphEnd _ read =>
    obtain ⟨part, c, hpart, hc⟩ := Scanner.exists_of_passLineBreak? read
    rw [hpart, List.append_cons, Text.before_append]
    refine .inr (.inl fun front => ?_)
    rw [← List.append_assoc]
    exact Scanner.opensLine_of_break hc rfl
  -- these leave the context, or stay out of it
  | commentStart _ _ | codeBlockStart _ _ _ | proseText _ _ | fenceLineEnd _ _ => cases hnext
  | commentContent state _ | fenceLineSpace state _ | codeBlockAttribute state _
  | codeBlockContent state _ _ =>
    rw [state] at hnext
    cases hnext
  -- the rest is not for prose
  | templateText _ template _ => exact absurd template h.prose
  | valueSpace state _ _ | namelessStart state _ | strayInStartTag state _ | namelessEnd state _
  | strayInEndTag state _ => simp [state] at hprose
  | tagSpace state _ | nameSpace state _ =>
    rcases state with state | state <;> simp [state] at hprose
  | _ => exact Bool.noConfusion hkind

namespace Scanner

/-- **Where the scanner takes a line to begin**, a line does begin, or it has come there in the middle
of one. -/
theorem content_opens_line (prose : dialect ≠ .template) (text : Text) (n : Nat)
    (hstate : ((start dialect text).after n).memory.state = .content) :
    ∃ front, text = front ++ ((start dialect text).after n).rest ∧
      size front = ((start dialect text).after n).offset ∧
      (OpensLine front ∨ FollowsMidLine dialect text n front) := by
  induction n with
  | zero => exact ⟨[], rfl, rfl, .inl ⟨[], [], rfl, rfl, rfl⟩⟩
  | succ n ih =>
    have hof := (Stage.of_start prose text).after n
    have hplace : ((Stage.start dialect text).after n).scanner = (start dialect text).after n :=
      Stage.scanner_after n _
    have hleads := hof.leads_to_content
    have hwithin := hof.within
    rw [hplace] at hleads hwithin
    rw [after_succ] at hstate ⊢
    obtain ⟨read, htext, hsize⟩ := hwithin.exists_token
    refine ⟨read ++ ((start dialect text).after n).scan.1.lexeme, ?_, ?_, ?_⟩
    · rw [List.append_assoc, ← htext]
    · rw [size_append, hsize, (scan_span _).1, (scan_span _).2]
    rcases hleads hstate with hkind | hopens | ⟨hcontent, hspace⟩
    · refine .inr ⟨n, Nat.lt_succ_self n, hkind, _, [], (List.append_nil _).symm, ?_, rfl⟩
      rw [size_append, hsize, (scan_span _).1, (scan_span _).2]
    · exact .inl (hopens read)
    · -- within a line, what was in front of the space is still what matters
      obtain ⟨front, htext', hsize', hplace'⟩ := ih hcontent
      rw [← scan_reads] at htext
      obtain rfl := List.append_cancel_right (htext'.symm.trans htext)
      exact hplace'.imp (·.append hspace) (·.append hspace)

/-- A fence or an import is only asked for in this context. -/
theorem state_of_opening {st : Stage} (h : st.Of dialect text)
    (hkind : st.scanner.scan.1.kind = .codeBlockStart ∨
      st.scanner.scan.1.kind = .importStatement) : st.scanner.memory.state = .content := by
  by_cases hnil : st.scanner.rest = []
  · rw [scan_at_end hnil] at hkind
    simp [take] at hkind
  obtain ⟨kind, error, rest, m, hyields, hscan⟩ := h.exists_yields hnil
  rw [hscan] at hkind
  rcases hkind with hkind | hkind
  · obtain rfl : kind = .codeBlockStart := hkind
    cases hyields with
    | codeBlockStart state _ _ => exact state
  · obtain rfl : kind = .importStatement := hkind
    cases hyields with
    | importStatement state _ _ => exact state

/-- **What opens a line.** In a document of prose there is nothing but spaces and tabs between a fence
that opens a block, or an import, and the start of its line; or else between it and the end of a
comment, of host code, of an import or of a closing fence. -/
theorem opens_line_or_follows (prose : dialect ≠ .template) (text : Text) (n : Nat) :
    let t := ((start dialect text).after n).scan.1
    (t.kind = .codeBlockStart ∨ t.kind = .importStatement) →
      ∃ front back, text = front ++ (t.lexeme ++ back) ∧ size front = t.span.start ∧
        (OpensLine front ∨ FollowsMidLine dialect text n front) := by
  intro t hkind
  have hof := (Stage.of_start prose text).after n
  have hplace : ((Stage.start dialect text).after n).scanner = (start dialect text).after n :=
    Stage.scanner_after n _
  have hstate := state_of_opening hof (hplace ▸ hkind)
  rw [hplace] at hstate
  obtain ⟨front, htext, hsize, hopens⟩ := content_opens_line prose text n hstate
  refine ⟨front, ((start dialect text).after n).scan.2.rest, ?_, ?_, hopens⟩
  · rw [← scan_reads, ← htext]
  · rw [hsize, (scan_span _).1]

/-- A fence behind a comment, in a line of its own otherwise. -/
theorem opens_line_or_follows_comment :
    let text : Text := "a\n<!--b--> \t```".toList
    let t := ((start .markdown text).after 6).scan.1
    (Dialect.markdown ≠ .template ∧ t.kind = .codeBlockStart) ∧
      ∃ front back, text = front ++ (t.lexeme ++ back) ∧ size front = t.span.start ∧
        (OpensLine front ∨ FollowsMidLine .markdown text 6 front) := by
  have hprose : Dialect.markdown ≠ .template := by decide
  have hkind : ((start .markdown "a\n<!--b--> \t```".toList).after 6).scan.1.kind
      = .codeBlockStart := by decide +kernel
  exact ⟨⟨hprose, hkind⟩, opens_line_or_follows hprose "a\n<!--b--> \t```".toList 6 (.inl hkind)⟩

/-- What opens a line has a line break in it, or it is the start of the document. -/
theorem OpensLine.break_or_space {front : Text} (h : OpensLine front) :
    front.any isLineBreak = true ∨ front.all isLineSpace = true := by
  obtain ⟨above, gap, rfl, habove, hgap⟩ := h
  cases habove' : above.getLast? with
  | none =>
    rw [List.getLast?_eq_none_iff.1 habove', List.nil_append]
    exact .inr hgap
  | some c =>
    rw [habove'] at habove
    refine .inl (List.any_eq_true.2 ⟨c, ?_, habove⟩)
    exact List.mem_append_left gap (List.mem_of_getLast? habove')

/-- **Prose behind an expression is taken for an import**, although it does not open its line. -/
theorem import_behind_expression :
    let text : Text := "\x7ba\x7d import b".toList
    let t := ((start .mdx text).after 2).scan.1
    t.kind = .importStatement ∧ t.span = ⟨4, 12⟩ ∧ text = "\x7ba\x7d ".toList ++ t.lexeme ∧
      size "\x7ba\x7d ".toList = t.span.start ∧ ¬ OpensLine "\x7ba\x7d ".toList := by
  refine ⟨by decide +kernel, by decide +kernel, by decide +kernel, by decide +kernel, ?_⟩
  intro hopens
  have hcases := hopens.break_or_space
  revert hcases
  decide +kernel

end Scanner

end HybridMarkup
