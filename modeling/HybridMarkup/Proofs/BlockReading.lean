/-
How a fenced block is read, and what is read alike if its body is edited.

The opening line of a block is read word by word, and the first of them is the language of the block
(`Stage.read_opening`). What stands between that line and the closing fence is one token, or none if
there is nothing, and the two cases end in the same place: in front of what follows the block, with
the block closed and its body filled in (`Stage.read_body`). Nothing else of the body is remembered.
So two documents that differ in the body of one block have the same text left behind it, and the
drafts of their trees are alike up to that block (`Parse.draft_alike`).
-/
import Mathlib.Data.List.DropRight
import HybridMarkup.Proofs.SideBySide

set_option autoImplicit false

namespace HybridMarkup

open Text

/-! ## The closing line -/

/-- What a block contains whose closing fence stands on the next line. A carriage return at the end
belongs to the line break. -/
def blockBody : Text → Text
  | [] => []
  | ['\r'] => []
  | c :: t => c :: blockBody t

theorem blockBody_cons {c : Char} {t : Text} (h : c = '\r' → t ≠ []) :
    blockBody (c :: t) = c :: blockBody t := by
  rw [blockBody]
  rintro rfl
  exact h rfl

/-- A text that does not close the block in which it stands: it neither begins with a fence nor has
a line that does. -/
structure IsBody (b : Text) : Prop where
  starts : ¬ fence <+: b
  inside : ¬ '\n' :: fence <:+: b

/-- The lines that may end a body. -/
def IsLineEnd (t : Text) : Prop := t = ['\n'] ∨ t = ['\r', '\n']

theorem afterFenceLine?_lineEnd {lineEnd : Text} (h : IsLineEnd lineEnd) (t : Text) :
    afterFenceLine? (lineEnd ++ (fence ++ t)) = some t := by
  rcases h with rfl | rfl <;> exact strip?_eq_some.2 rfl

theorem strip?_fence_lineEnd {lineEnd : Text} (h : IsLineEnd lineEnd) (t : Text) :
    strip? fence (lineEnd ++ t) = none := by
  rcases h with rfl | rfl <;> rfl

/-- A body does not begin with a fence because of what follows it. -/
theorem strip?_fence_body {b : Text} (h : ¬ fence <+: b) (t : Text) :
    strip? fence (b ++ '\n' :: t) = none := by
  refine Option.eq_none_iff_forall_ne_some.2 fun rest hrest => ?_
  rcases List.append_eq_append_iff.1 (strip?_eq_some.1 hrest) with ⟨u, hfence, hu⟩ | ⟨u, hb, _⟩
  · rcases u with _ | ⟨c, u⟩
    · exact h ⟨[], by rw [hfence, List.append_nil, List.append_nil]⟩
    -- the line feed would be part of the fence
    · obtain ⟨rfl, _⟩ := List.cons.inj hu
      have hmem : '\n' ∈ fence := by rw [hfence]; simp
      simp [fence] at hmem
  · exact h ⟨u, hb.symm⟩

/-- **A body ends at the line that closes it**, unless a closing line is part of it. -/
theorem seek_closing {b : Text} (h : ¬ '\n' :: fence <:+: b) (post : Text) :
    ∃ lineEnd, IsLineEnd lineEnd ∧
      b ++ '\n' :: (fence ++ post) = blockBody b ++ (lineEnd ++ (fence ++ post)) ∧
      seek (fun t => (afterFenceLine? t).isSome) (b ++ '\n' :: (fence ++ post))
        = lineEnd ++ (fence ++ post) := by
  induction b with
  | nil =>
    refine ⟨['\n'], .inl rfl, rfl, ?_⟩
    have hhere : (afterFenceLine? ('\n' :: (fence ++ post))).isSome = true := by
      rw [show afterFenceLine? ('\n' :: (fence ++ post)) = some post from
        afterFenceLine?_lineEnd (.inl rfl) post]
      rfl
    rw [List.nil_append, seek, if_pos hhere]
    rfl
  | cons c b ih =>
    by_cases hreturn : c = '\r' ∧ b = []
    · obtain ⟨rfl, rfl⟩ := hreturn
      refine ⟨['\r', '\n'], .inr rfl, rfl, ?_⟩
      have hhere : (afterFenceLine? ('\r' :: '\n' :: (fence ++ post))).isSome = true := by
        rw [show afterFenceLine? ('\r' :: '\n' :: (fence ++ post)) = some post from
          afterFenceLine?_lineEnd (.inr rfl) post]
        rfl
      rw [List.cons_append, seek, List.nil_append, if_pos hhere]
      rfl
    · have hrest : ¬ '\n' :: fence <:+: b := fun hinner =>
        h (hinner.trans (List.suffix_cons c b).isInfix)
      have hclosed {t : Text} (ht : '\n' :: t <:+: c :: b) : ¬ fence <+: t := by
        rintro ⟨u, rfl⟩
        exact h (List.IsInfix.trans ⟨[], u, rfl⟩ ht)
      -- no closing line begins here
      have hhere : afterFenceLine? (c :: (b ++ '\n' :: (fence ++ post))) = none := by
        by_cases hn : c = '\n'
        · subst hn
          exact strip?_fence_body (hclosed (List.infix_refl _)) _
        by_cases hr : c = '\r'
        · subst hr
          rcases b with _ | ⟨d, b⟩
          · exact absurd ⟨rfl, rfl⟩ hreturn
          by_cases hd : d = '\n'
          · subst hd
            exact strip?_fence_body (hclosed (List.suffix_cons _ _).isInfix) _
          · simp [afterFenceLine?, hd]
        · simp [afterFenceLine?, hn, hr]
      obtain ⟨lineEnd, hend, hparts, hseek⟩ := ih hrest
      refine ⟨lineEnd, hend, ?_, ?_⟩
      · rw [blockBody_cons fun hr hb => hreturn ⟨hr, hb⟩, List.cons_append, List.cons_append,
          hparts]
      · rw [List.cons_append, seek, hhere]
        exact hseek

/-! ## The opening line -/

/-- The first word of an opening line. -/
def firstWord (info : Text) : Text :=
  (info.dropWhile isLineSpace).takeWhile fun c => !isSpace c

theorem dropWhile_line {p : Char → Bool} (hp : p '\n' = false) (c t : Text) :
    (c ++ '\n' :: t).dropWhile p = c.dropWhile p ++ '\n' :: t := by
  induction c with
  | nil => simp [hp]
  | cons a c ih => by_cases ha : p a <;> simp [ha, ih]

theorem firstWord_space {a : Char} {c : Text} (h : isLineSpace a = true) :
    firstWord (a :: c) = firstWord (c.dropWhile isLineSpace) := by
  rw [firstWord, firstWord, List.dropWhile_cons, if_pos h, List.dropWhile_idempotent isLineSpace]

theorem firstWord_word {a : Char} {c : Text} (h : isSpace a = false) :
    firstWord (a :: c) = a :: c.takeWhile fun c => !isSpace c := by
  have hline : isLineSpace a = false := by
    rw [isSpace, Bool.or_eq_false_iff] at h
    simp [h]
  have hword : (!isSpace a) = true := by rw [h]; rfl
  rw [firstWord, List.dropWhile_cons, hline]
  exact List.takeWhile_cons_of_pos hword

namespace Memory

variable {m : Memory} {a : Char}

theorem passLineBreak?_of_not (h : isLineBreak a = false) (t : Text) :
    passLineBreak? (a :: t) = none := by
  have hr : a ≠ '\r' := by
    rintro rfl
    simp [isLineBreak] at h
  simp [passLineBreak?, hr, h]

theorem scanFenceInfo_space (hspace : isLineSpace a = true) (hbreak : isLineBreak a = false)
    (c t : Text) :
    m.scanFenceInfo (a :: c ++ '\n' :: t)
      = .token .whitespace none (c.dropWhile isLineSpace ++ '\n' :: t) m := by
  rw [List.cons_append, scanFenceInfo, passLineBreak?_of_not hbreak, passWhile?, if_pos hspace,
    dropWhile_line (by decide)]
  rfl

theorem scanFenceInfo_word (hspace : isSpace a = false) (c t : Text) :
    m.scanFenceInfo (a :: c ++ '\n' :: t)
      = .token .codeBlockAttribute none (c.dropWhile (fun c => !isSpace c) ++ '\n' :: t) m := by
  obtain ⟨hline, hbreak⟩ : isLineSpace a = false ∧ isLineBreak a = false := by
    rwa [isSpace, Bool.or_eq_false_iff] at hspace
  rw [List.cons_append, scanFenceInfo, passLineBreak?_of_not hbreak, passWhile?,
    if_neg (by rw [hline]; simp), List.dropWhile_cons_of_pos (by simp [hspace]),
    dropWhile_line (by decide)]
  rfl

theorem step_fenceInfo (h : m.state = .fenceInfo) (dialect : Dialect) (before : Option Char)
    (c t : Text) :
    m.step dialect before (c ++ '\n' :: t) = m.scanFenceInfo (c ++ '\n' :: t) := by
  obtain ⟨a, u, heq⟩ := List.exists_cons_of_ne_nil (l := c ++ '\n' :: t) (by simp)
  rw [heq, step]
  unfold stepWithin
  rw [h]

theorem step_fenceBody (h : m.state = .fenceBody) (dialect : Dialect) (before : Option Char)
    {t : Text} (ht : t ≠ []) : m.step dialect before t = m.scanFenceBody before t := by
  obtain ⟨a, u, rfl⟩ := List.exists_cons_of_ne_nil ht
  rw [step]
  unfold stepWithin
  rw [h]

theorem scanFenceBody_closing {lineEnd : Text} (h : IsLineEnd lineEnd) (before : Option Char)
    (post : Text) :
    m.scanFenceBody before (lineEnd ++ (fence ++ post))
      = .token .codeBlockEnd none post (m.goto .content) := by
  rw [scanFenceBody, strip?_fence_lineEnd h, ite_self, afterFenceLine?_lineEnd h]
  rfl

theorem scanFenceBody_content {t : Text} (hfence : strip? fence t = none)
    (hline : afterFenceLine? t = none) (before : Option Char) :
    m.scanFenceBody before t = .token .codeBlockContent none
      (seek (fun t => (afterFenceLine? t).isSome) t) m := by
  rw [scanFenceBody, hfence, ite_self, hline]
  rfl

end Memory

namespace Draft

variable {d : Draft} {block : CodeBlock} {t : Token}

/-- A word of the opening line is the language or one of the attributes. -/
theorem exists_codeBlockAttribute (hlt : d.current < d.tree.size)
    (hdata : d.currentData = .codeBlock block) (t : Token) :
    ∃ block', (d.codeBlockAttribute t).currentData = .codeBlock block' ∧ block'.text = block.text ∧
      (block.lang.isSome = true → block'.lang = block.lang) ∧
      (block.lang = none → block.attrs = [] → block'.lang = some t.lexeme) := by
  unfold codeBlockAttribute
  rw [hdata]
  dsimp only
  split
  · next hfirst =>
    refine ⟨{ block with openerEnd := t.span.stop, lang := some t.lexeme }, ?_, rfl,
      fun hlang => ?_, fun _ _ => rfl⟩
    · rw [currentData_extend, currentData_setCurrent _ hlt]
    · rw [← Option.not_isSome, hlang] at hfirst
      simp at hfirst
  · next hfurther =>
    refine ⟨{ block with
        openerEnd := t.span.stop
        attrs := block.attrs ++ [splitAttr t.lexeme] }, ?_, rfl, fun _ => rfl,
      fun hlang hattrs => ?_⟩
    · rw [currentData_extend]
      split
      · exact currentData_setCurrent _ hlt
      · exact currentData_setCurrent _ hlt
    · rw [hlang, hattrs] at hfurther
      simp at hfurther

/-- The body of a block without one is empty and stands in front of the closing line. -/
theorem codeBlockEnd_empty (hdata : d.currentData = .codeBlock block) (htext : block.text = [])
    (t : Token) :
    d.codeBlockEnd t = (d.setCurrent (.codeBlock
      { block with
        text := []
        contentSpan := Span.ofLength t.span.start 0 })).close t.span.stop := by
  rw [codeBlockEnd, hdata]
  simp only [htext, List.isEmpty_nil, if_true]
  rfl

theorem codeBlockEnd_codeBlockContent (hlt : d.current < d.tree.size)
    (hdata : d.currentData = .codeBlock block) (hbody : t.lexeme ≠ []) (t' : Token) :
    (d.codeBlockContent t).codeBlockEnd t' = (d.setCurrent (.codeBlock
      { block with
        text := t.lexeme
        contentSpan := t.span })).close t'.span.stop := by
  have hempty : t.lexeme.isEmpty = false := by simpa using hbody
  unfold codeBlockContent
  rw [hdata]
  dsimp only
  rw [codeBlockEnd, currentData_extend, currentData_setCurrent _ hlt]
  simp only [hempty, Bool.false_eq_true, if_false]
  exact close_extend ..

end Draft

namespace Stage

variable {dialect : Dialect} {text text' : Text} {st st' : Stage} {w c x x' : Text}

/-- A block is open of which the opening line has been read up to `c`, and its first word is `w`. -/
structure Opening (w c : Text) (st : Stage) : Prop where
  state : st.scanner.memory.state = .fenceInfo
  block : ∃ block, st.draft.currentData = .codeBlock block ∧ block.text = [] ∧
    (block.lang = some w ∨ block.lang = none ∧ block.attrs = [] ∧ firstWord c = w)

/-- Nothing of the body of the open block has been read. -/
structure AtBody (w : Text) (st : Stage) : Prop where
  state : st.scanner.memory.state = .fenceBody
  before : st.scanner.before = some '\n'
  block : ∃ block, st.draft.currentData = .codeBlock block ∧ block.text = [] ∧ block.lang = some w

section Opening

variable (h : Beside ('\n' :: x) ('\n' :: x') st st') (hof : st.Of dialect text)
  (hof' : st'.Of dialect text')

include h hof hof'

/-- The end of the line. -/
theorem Opening.line_end (hw : w ≠ []) (hrest : st.scanner.rest = '\n' :: x)
    (hopening : st.Opening w []) :
    Beside x x' st.next st'.next ∧ st.next.scanner.rest = x ∧ st.next.AtBody w := by
  obtain ⟨hstate, block, hdata, htext, hlang⟩ := hopening
  have hstep (v : Text) : st.scanner.memory.step st.scanner.dialect st.scanner.before
      (['\n'] ++ v) = .token .whitespace none v (st.scanner.memory.goto .fenceBody) :=
    Memory.step_fenceInfo hstate _ _ [] v
  have hbeside : Beside x x' st st' := ⟨h.scanner.further (v := ['\n']), h.draft⟩
  refine ⟨hbeside.next_of_step hof hof' (r := []) hrest (hstep x) (hstep x'), ?_⟩
  have hread : st.scanner.rest = ['\n'] ++ x := hrest
  rw [next_eq hread (hstep x)]
  refine ⟨rfl, rfl, rfl, block, hdata, htext, ?_⟩
  -- there was a word, so it has been read
  rcases hlang with hlang | ⟨_, _, hword⟩
  · exact hlang
  · exact absurd hword.symm hw

variable {a : Char}

theorem Opening.line_space (hspace : isLineSpace a = true) (hbreak : isLineBreak a = false)
    (hrest : st.scanner.rest = a :: c ++ '\n' :: x) (hopening : st.Opening w (a :: c)) :
    Beside ('\n' :: x) ('\n' :: x') st.next st'.next ∧
      st.next.scanner.rest = c.dropWhile isLineSpace ++ '\n' :: x ∧
      st.next.Opening w (c.dropWhile isLineSpace) := by
  obtain ⟨hstate, block, hdata, htext, hlang⟩ := hopening
  have hparts (y : Text) : a :: c ++ '\n' :: y
      = (a :: c.takeWhile isLineSpace) ++ (c.dropWhile isLineSpace ++ '\n' :: y) := by
    rw [List.cons_append, List.cons_append, ← List.append_assoc, List.takeWhile_append_dropWhile]
  have hstep (y : Text) := (Memory.step_fenceInfo hstate st.scanner.dialect st.scanner.before
    (a :: c) y).trans (Memory.scanFenceInfo_space hspace hbreak c y)
  simp only [hparts] at hrest hstep
  refine ⟨h.next_of_step hof hof' hrest (hstep x) (hstep x'), ?_⟩
  rw [next_eq hrest (hstep x)]
  exact ⟨rfl, hstate, block, hdata, htext,
    hlang.imp_right fun h => ⟨h.1, h.2.1, (firstWord_space hspace).symm.trans h.2.2⟩⟩

theorem Opening.line_word (hword : isSpace a = false)
    (hrest : st.scanner.rest = a :: c ++ '\n' :: x) (hopening : st.Opening w (a :: c)) :
    Beside ('\n' :: x) ('\n' :: x') st.next st'.next ∧
      st.next.scanner.rest = c.dropWhile (fun c => !isSpace c) ++ '\n' :: x ∧
      st.next.Opening w (c.dropWhile fun c => !isSpace c) := by
  obtain ⟨hstate, block, hdata, htext, hlang⟩ := hopening
  have hparts (y : Text) : a :: c ++ '\n' :: y
      = (a :: c.takeWhile fun c => !isSpace c) ++
        (c.dropWhile (fun c => !isSpace c) ++ '\n' :: y) := by
    rw [List.cons_append, List.cons_append, ← List.append_assoc, List.takeWhile_append_dropWhile]
  have hstep (y : Text) := (Memory.step_fenceInfo hstate st.scanner.dialect st.scanner.before
    (a :: c) y).trans (Memory.scanFenceInfo_word hword c y)
  simp only [hparts] at hrest hstep
  refine ⟨h.next_of_step hof hof' hrest (hstep x) (hstep x'), ?_⟩
  rw [next_eq hrest (hstep x)]
  obtain ⟨block', hdata', htext', hkeep, hfirst⟩ :=
    Draft.exists_codeBlockAttribute h.draft.upright.current_lt hdata
      { kind := .codeBlockAttribute
        span := Span.ofLength st.scanner.offset (size (a :: c.takeWhile fun c => !isSpace c))
        lexeme := a :: c.takeWhile fun c => !isSpace c
        error := none }
  refine ⟨rfl, hstate, block', hdata', htext'.trans htext, .inl ?_⟩
  rcases hlang with hlang | ⟨hlang, hattrs, hfirstWord⟩
  · rw [hkeep (by rw [hlang]; rfl), hlang]
  · rw [hfirst hlang hattrs, ← hfirstWord, firstWord_word hword]

end Opening

/-- **The opening line is read alike**, and its first word is the language of the block. -/
theorem read_opening (h : Beside ('\n' :: x) ('\n' :: x') st st') (hof : st.Of dialect text)
    (hof' : st'.Of dialect text') (hw : w ≠ []) (hrest : st.scanner.rest = c ++ '\n' :: x)
    (hc : ∀ a ∈ c, isLineBreak a = false) (hopening : st.Opening w c) :
    ∃ n, Beside x x' (st.after n) (st'.after n) ∧ (st.after n).scanner.rest = x ∧
      (st.after n).AtBody w := by
  induction hn : c.length using Nat.strongRecOn generalizing c st st' with
  | ind n ih =>
    subst hn
    rcases c with _ | ⟨a, c⟩
    · exact ⟨1, Opening.line_end h hof hof' hw hrest hopening⟩
    have hbreak : isLineBreak a = false := hc a (List.mem_cons_self ..)
    have hline (p : Char → Bool) (b : Char) (hb : b ∈ c.dropWhile p) : isLineBreak b = false :=
      hc b (List.mem_cons_of_mem a ((List.dropWhile_suffix p).subset hb))
    have hshorter (p : Char → Bool) : (c.dropWhile p).length < (a :: c).length :=
      Nat.lt_succ_of_le (List.dropWhile_suffix p).length_le
    by_cases hspace : isLineSpace a = true
    · obtain ⟨hnext, hread, hopen⟩ := Opening.line_space h hof hof' hspace hbreak hrest hopening
      obtain ⟨n, hn⟩ := ih _ (hshorter _) hnext hof.next hof'.next hread (hline _) hopen rfl
      exact ⟨n + 1, hn⟩
    · have hword : isSpace a = false := by
        rw [isSpace, hbreak, Bool.or_false]
        simpa using hspace
      obtain ⟨hnext, hread, hopen⟩ := Opening.line_word h hof hof' hword hrest hopening
      obtain ⟨n, hn⟩ := ih _ (hshorter _) hnext hof.next hof'.next hread (hline _) hopen rfl
      exact ⟨n + 1, hn⟩

/-! ## The fence -/

/-- A block begins where a line of prose may begin. -/
theorem Of.state_content (hof : st.Of dialect text)
    (hkind : st.scanner.scan.1.kind = .codeBlockStart) :
    st.scanner.memory.state = .content := by
  have hrest : st.scanner.rest ≠ [] := by
    intro hrest
    rw [Scanner.scan_at_end hrest] at hkind
    simp [Scanner.take] at hkind
  obtain ⟨m, kind, error, rest, m', hturns, hyields, hscan⟩ := Scanner.scan_before_end hrest
  rw [hturns.eq_of_rank hof.inProse.rank_eq_zero] at hyields
  rw [hscan] at hkind
  obtain rfl : kind = .codeBlockStart := hkind
  cases hyields with
  | codeBlockStart state _ _ => exact state

/-- Behind the fence a block is open of which nothing is known. -/
theorem Opening.of_fence
    (h : Beside (fence ++ (c ++ '\n' :: x)) (fence ++ (c ++ '\n' :: x')) st st')
    (hof : st.Of dialect text) (hof' : st'.Of dialect text')
    (hrest : st.scanner.rest = fence ++ (c ++ '\n' :: x))
    (hstate : st.scanner.memory.state = .content) :
    Beside ('\n' :: x) ('\n' :: x') st.next st'.next ∧
      st.next.scanner.rest = c ++ '\n' :: x ∧ st.next.Opening (firstWord c) c := by
  have hstep (v : Text) : st.scanner.memory.step st.scanner.dialect st.scanner.before (fence ++ v)
      = .token .codeBlockStart none v (st.scanner.memory.goto .fenceInfo) := by
    have hline (dialect : Dialect) : st.scanner.memory.scanLineStart dialect (fence ++ v)
        = .token .codeBlockStart none v (st.scanner.memory.goto .fenceInfo) := by
      rw [Memory.scanLineStart, strip?_eq_some.2 rfl]
      rfl
    have hspace : passWhile? isSpace (fence ++ v) = none := rfl
    have hcomment : strip? commentOpening (fence ++ v) = none := rfl
    rw [show fence ++ v = '\x60' :: '\x60' :: '\x60' :: v from rfl, Memory.step,
      show '\x60' :: '\x60' :: '\x60' :: v = fence ++ v from rfl]
    unfold Memory.stepWithin
    rw [hstate, hspace, hcomment]
    dsimp only
    cases hdialect : st.scanner.dialect with
    | template => exact absurd (hof.dialect_eq.symm.trans hdialect) hof.prose
    | markdown => exact hline .markdown
    | mdx => exact hline .mdx
  have hbeside : Beside (c ++ '\n' :: x) (c ++ '\n' :: x') st st' := ⟨h.scanner.further, h.draft⟩
  have hnext := hbeside.next_of_step hof hof' (r := []) hrest (hstep _) (hstep _)
  refine ⟨⟨hnext.scanner.further, hnext.draft⟩, ?_⟩
  rw [next_eq hrest (hstep _)]
  exact ⟨rfl, rfl, _, Draft.currentData_openNode _ _ h.draft.upright.current_lt, rfl,
    .inr ⟨rfl, rfl, rfl⟩⟩

/-! ## The body -/

/-- The closing line. -/
theorem next_of_closing {lineEnd post : Text} (hstate : st.scanner.memory.state = .fenceBody)
    (hend : IsLineEnd lineEnd) (hrest : st.scanner.rest = lineEnd ++ (fence ++ post)) :
    st.next =
      { scanner :=
          { st.scanner with
            offset := st.scanner.offset + size (lineEnd ++ fence)
            before := some '\x60'
            rest := post
            memory :=
              { st.scanner.memory with
                state := .content
                lastKind := some .codeBlockEnd } }
        draft := st.draft.codeBlockEnd
          { kind := .codeBlockEnd
            span := Span.ofLength st.scanner.offset (size (lineEnd ++ fence))
            lexeme := lineEnd ++ fence
            error := none } } := by
  rw [← List.append_assoc] at hrest
  have hne : lineEnd ++ fence ++ post ≠ [] := by simp [fence]
  have hstep := Memory.step_fenceBody hstate st.scanner.dialect st.scanner.before hne
  rw [List.append_assoc, Memory.scanFenceBody_closing hend, ← List.append_assoc] at hstep
  have hlast : (lineEnd ++ fence).getLast?.or st.scanner.before = some '\x60' := by
    rw [List.getLast?_append]
    rfl
  rw [next_eq hrest hstep, hlast]
  rfl

/-- The body up to the closing line. -/
theorem next_of_content {body closing : Text} (hstate : st.scanner.memory.state = .fenceBody)
    (hrest : st.scanner.rest = body ++ closing) (hbody : body ≠ [])
    (hfence : strip? fence (body ++ closing) = none)
    (hline : afterFenceLine? (body ++ closing) = none)
    (hseek : seek (fun t => (afterFenceLine? t).isSome) (body ++ closing) = closing) :
    st.next =
      { scanner :=
          { st.scanner with
            offset := st.scanner.offset + size body
            before := body.getLast?.or st.scanner.before
            rest := closing
            memory := { st.scanner.memory with lastKind := some .codeBlockContent } }
        draft := st.draft.codeBlockContent
          { kind := .codeBlockContent
            span := Span.ofLength st.scanner.offset (size body)
            lexeme := body
            error := none } } := by
  have hne : body ++ closing ≠ [] := fun hnil => hbody (List.append_eq_nil_iff.1 hnil).1
  have hstep := Memory.step_fenceBody hstate st.scanner.dialect st.scanner.before hne
  rw [Memory.scanFenceBody_content hfence hline, hseek] at hstep
  rw [next_eq hrest hstep]
  rfl

/-- **A body is read up to its closing line**, and it is what the block contains. -/
theorem read_body {b post : Text} {block : CodeBlock}
    (hstate : st.scanner.memory.state = .fenceBody)
    (hlt : st.draft.current < st.draft.tree.size)
    (hdata : st.draft.currentData = .codeBlock block) (htext : block.text = []) (hbody : IsBody b)
    (hrest : st.scanner.rest = b ++ '\n' :: (fence ++ post)) :
    ∃ n stop,
      (st.after n).scanner.dialect = st.scanner.dialect ∧
      (st.after n).scanner.before = some '\x60' ∧
      (st.after n).scanner.rest = post ∧
      (st.after n).scanner.memory =
        { st.scanner.memory with
          state := .content
          lastKind := some .codeBlockEnd } ∧
      (st.after n).draft = (st.draft.setCurrent (.codeBlock
        { block with
          text := blockBody b
          contentSpan := Span.ofLength st.scanner.offset (size (blockBody b)) })).close stop := by
  obtain ⟨hstarts, hinside⟩ := hbody
  obtain ⟨lineEnd, hend, hparts, hseek⟩ := seek_closing hinside post
  by_cases hbody : blockBody b = []
  -- the closing line is next
  · have hread : st.scanner.rest = lineEnd ++ (fence ++ post) := by
      rw [hrest, hparts, hbody, List.nil_append]
    refine ⟨1, st.scanner.offset + size (lineEnd ++ fence), ?_⟩
    rw [show st.after 1 = st.next from rfl, next_of_closing hstate hend hread, hbody]
    exact ⟨rfl, rfl, rfl, rfl, Draft.codeBlockEnd_empty hdata htext _⟩
  · have hread : st.scanner.rest = blockBody b ++ (lineEnd ++ (fence ++ post)) :=
      hrest.trans hparts
    have hfence : strip? fence (blockBody b ++ (lineEnd ++ (fence ++ post))) = none := by
      rw [← hparts]
      exact strip?_fence_body hstarts _
    -- if a closing line began here, there would be no body
    have hline : afterFenceLine? (blockBody b ++ (lineEnd ++ (fence ++ post))) = none := by
      refine Option.eq_none_iff_forall_ne_some.2 fun rest hsome => hbody ?_
      obtain ⟨a, u, heq⟩ := List.exists_cons_of_ne_nil hbody
      rw [hparts, heq, List.cons_append, seek, ← List.cons_append, ← heq, hsome] at hseek
      exact List.append_left_eq_self.1 hseek
    rw [hparts] at hseek
    have hcontent := next_of_content hstate hread hbody hfence hline hseek
    have hstate' : st.next.scanner.memory.state = .fenceBody := by
      rw [hcontent]
      exact hstate
    have hclosing := next_of_closing hstate' hend (congrArg (·.scanner.rest) hcontent)
    refine ⟨2, st.next.scanner.offset + size (lineEnd ++ fence), ?_⟩
    rw [show st.after 2 = st.next.next from rfl, hclosing]
    rw [hcontent]
    exact ⟨rfl, rfl, rfl, rfl, Draft.codeBlockEnd_codeBlockContent hlt hdata hbody _⟩

end Stage

/-! ## A block in two versions -/

/-- A block of a language with a body that begins at an offset. -/
structure CodeBlock.Contains (block : CodeBlock) (language : Text) (start : Nat) (body : Text) :
    Prop where
  lang_eq : block.lang = some language
  text_eq : block.text = body
  contentSpan_eq : block.contentSpan = Span.ofLength start (size body)

/-- When the open node is closed, its parent is open, and all nodes are where they were. -/
theorem Draft.close_eq {d : Draft} {p : Nat} (hp : d.tree.parent d.current = some p) (stop : Nat) :
    (d.close stop).current = p ∧ (d.close stop).tree.size = d.tree.size ∧
      (∀ i, (d.close stop).tree.parent i = d.tree.parent i) ∧
      ∀ i, (d.close stop).tree.data i = d.tree.data i := by
  unfold close ascend
  dsimp only
  rw [Tree.parent_setSpan, hp]
  unfold grow
  dsimp only
  refine ⟨rfl, ?_, fun i => ?_, fun i => ?_⟩
  · rw [Tree.size_setSpan, Tree.size_setSpan]
  · rw [Tree.parent_setSpan, Tree.parent_setSpan]
  · rw [Tree.data_setSpan, Tree.data_setSpan]

namespace Stage

variable {dialect : Dialect} {text text' : Text} {st st' : Stage} {w b b' post : Text}

/-- A block that is being read is the newest node, so nothing is below it. -/
theorem AtBody.newest (hat : st.AtBody w) (hof : st.Of dialect text) :
    (∃ p : Nat, st.draft.tree.parent st.draft.current = some p ∧ p ≠ st.draft.current) ∧
      ∀ i : Nat, st.draft.tree.parent i ≠ some st.draft.current := by
  obtain ⟨deal, hsynced⟩ := hof.synced
  simp only [ProseArtifacts.Synced, hat.state] at hsynced
  obtain ⟨hstands, hlast, _⟩ := hsynced
  obtain ⟨p, hparent, _⟩ := hstands.chain.up
  refine ⟨⟨p, hparent, Nat.ne_of_lt (hstands.parent_lt _ p hparent)⟩, fun i hi => ?_⟩
  have hnewer : st.draft.current + 1 ≤ i := hstands.parent_lt i _ hi
  rw [hlast] at hnewer
  exact absurd (Tree.lt_size_of_parent hi) (Nat.not_lt.2 hnewer)

/-- **Whatever the body is**, the same text is left behind it. -/
theorem Beside.level
    (h : Beside (b ++ '\n' :: (fence ++ post)) (b' ++ '\n' :: (fence ++ post)) st st')
    (hof : st.Of dialect text) (hat : st.AtBody w)
    (hrest : st.scanner.rest = b ++ '\n' :: (fence ++ post)) (hb : IsBody b) (hb' : IsBody b') :
    ∃ n n' e, Level (some e) (st.after n) (st'.after n') ∧
      e.old.Contains w st.scanner.offset (blockBody b) ∧
      e.new.Contains w st.scanner.offset (blockBody b') := by
  obtain ⟨⟨p, hparent, hp⟩, hchildless⟩ := hat.newest hof
  obtain ⟨hstate, hbefore, block, hdata, htext, hlang⟩ := hat
  have hlt := h.draft.upright.current_lt
  have hlt' : st'.draft.current < st'.draft.tree.size := by
    rw [h.draft.current_eq, h.draft.size_eq]
    exact hlt
  have hstate' : st'.scanner.memory.state = .fenceBody := by rw [h.scanner.memory_eq, hstate]
  have hrest' : st'.scanner.rest = b' ++ '\n' :: (fence ++ post) := by
    obtain ⟨c, hc, hc'⟩ := h.scanner.rest_eq
    rw [hrest] at hc
    rw [hc', List.append_left_eq_self.1 hc.symm, List.nil_append]
  have hwords := h.draft.words_current
  rw [hdata] at hwords
  obtain ⟨contentSpan, openerEnd, hdata'⟩ := NodeData.codeBlock_of_words hwords
  obtain ⟨n, stop, hdialect, hlast, hleft, hmemory, hdraft⟩ :=
    read_body hstate hlt hdata htext hb hrest
  obtain ⟨n', stop', hdialect', hlast', hleft', hmemory', hdraft'⟩ :=
    read_body hstate' hlt' hdata' htext hb' hrest'
  obtain ⟨hcurrent, hsize, hparents, hdatas⟩ := Draft.close_eq hparent stop
  have hclosed := (h.draft.close stop stop').setBlock (k := st.draft.current) (hsize ▸ hlt)
    (hcurrent ▸ hp.symm) (fun i hi => hchildless i (hparents i ▸ hi))
    (Tree.kind_of_data ((hdatas _).trans hdata))
    { block with
      text := blockBody b
      contentSpan := Span.ofLength st.scanner.offset (size (blockBody b)) }
    { block with
      text := blockBody b'
      contentSpan := Span.ofLength st'.scanner.offset (size (blockBody b'))
      openerEnd }
  rw [← Draft.close_setCurrent, ← h.draft.current_eq, ← Draft.close_setCurrent, ← hdraft,
    ← hdraft', h.scanner.offset_eq] at hclosed
  refine ⟨n, n', _, ⟨?_, ?_, ?_, ?_, hclosed⟩, ⟨hlang, rfl, rfl⟩, ⟨hlang, rfl, rfl⟩⟩
  · rw [hdialect, hdialect', h.scanner.dialect_eq]
  · rw [hlast, hlast']
  · rw [hmemory, hmemory', h.scanner.memory_eq]
  · rw [hleft, hleft']

end Stage

/-- A document with a fenced block in it. -/
def fencedDocument (pre info body post : Text) : Text :=
  pre ++ (fence ++ (info ++ '\n' :: (body ++ '\n' :: (fence ++ post))))

/-- Where the body of the block begins. -/
def bodyStart (pre info : Text) : Nat := size (pre ++ (fence ++ (info ++ ['\n'])))

/-- The scanner finds a block that begins at an offset. -/
def OpensBlock (dialect : Dialect) (text : Text) (start : Nat) : Prop :=
  ∃ t ∈ tokenize dialect text, t.kind = .codeBlockStart ∧ t.span.start = start

/-- **An edit of one body** leaves the trees alike up to the block with that body. -/
theorem Parse.exists_edit {dialect : Dialect} (prose : dialect ≠ .template)
    {pre info body body' post : Text} (hinfo : ∀ c ∈ info, isLineBreak c = false)
    (hlanguage : firstWord info ≠ []) (hbody : IsBody body) (hbody' : IsBody body')
    (hopens : OpensBlock dialect (fencedDocument pre info body post) (size pre)) :
    ∃ e, Draft.Alike (some e) (Parse.draft dialect (fencedDocument pre info body post))
        (Parse.draft dialect (fencedDocument pre info body' post)) ∧
      e.old.Contains (firstWord info) (bodyStart pre info) (blockBody body) ∧
      e.new.Contains (firstWord info) (bodyStart pre info) (blockBody body') := by
  obtain ⟨t, ht, hkind, hstart⟩ := hopens
  obtain ⟨i, rfl⟩ := Stage.exists_of_mem_tokenize prose ht
  have hof := (Stage.of_start prose (fencedDocument pre info body post)).after i
  have hof' := (Stage.of_start prose (fencedDocument pre info body' post)).after i
  have hfence := hof.rest_eq rfl (hstart ▸ (congrArg Span.start (Scanner.scan_span _).1).symm)
  have hbeside : Stage.Beside (fence ++ (info ++ '\n' :: (body ++ '\n' :: (fence ++ post))))
      (fence ++ (info ++ '\n' :: (body' ++ '\n' :: (fence ++ post))))
      ((Stage.start dialect (fencedDocument pre info body post)).after i)
      ((Stage.start dialect (fencedDocument pre info body' post)).after i) :=
    (Stage.beside_start dialect pre _ _).after (Stage.of_start prose _) (Stage.of_start prose _) i
      (r := []) hfence
  obtain ⟨hnext, hrest, hopening⟩ :=
    Stage.Opening.of_fence hbeside hof hof' hfence (hof.state_content hkind)
  obtain ⟨k, hbodies, hbodyRest, hat⟩ :=
    Stage.read_opening hnext hof.next hof'.next hlanguage hrest hinfo hopening
  obtain ⟨n, n', e, hlevel, hold, hnew⟩ :=
    hbodies.level (hof.next.after k) hat hbodyRest hbody hbody'
  have hoffset := (hof.next.after k).offset_eq
    (show fencedDocument pre info body post
      = pre ++ (fence ++ (info ++ ['\n'])) ++ (body ++ '\n' :: (fence ++ post)) by
        simp [fencedDocument]) hbodyRest
  rw [hoffset] at hold hnew
  have hplace (s : Stage) (n : Nat) :
      ((s.after i).next.after k).after n = s.after (i + ((k + n) + 1)) := by
    rw [Stage.after_add i, ← Stage.after_add k]
    rfl
  rw [hplace, hplace] at hlevel
  exact ⟨e, hlevel.draft_alike prose, hold, hnew⟩

end HybridMarkup
