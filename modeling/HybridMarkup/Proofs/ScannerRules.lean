/-
What one step of the scanner can do.

The scanner has fifteen contexts, and a step in any of them either yields a token or turns to
another context. This file lists the steps as rules: `Memory.Yields` has one rule for each kind of
token in each context that can yield it, with what the token takes of the text and what the scanner
remembers afterwards, and `Memory.Turns` has the six ways of changing the context without a token.
`Memory.step_obeys` says that the lists are complete. It is the one place where the scanner's
definitions are opened; what holds of every run of the scanner is shown rule by rule.

Two things that the definitions leave room for are not among the rules, because they cannot happen:
prose has no token for an unexpected character, and a quoted value is never asked for at the end of
the text.
-/
import HybridMarkup.Scanner
import HybridMarkup.Proofs.Readers

set_option autoImplicit false

namespace HybridMarkup

open Text

/-! ## The rules -/

/-- The ways to yield a token with the memory `m` in front of the text `t`, by the kind of the
token, its fault, the text behind it and the memory behind it. -/
inductive Memory.Yields (dialect : Dialect) (before : Option Char) (m : Memory) (t : Text) :
    TokenKind → Option LexError → Text → Memory → Prop where
  /-- Space where it means nothing. -/
  | space {rest : Text} (state : m.state = .content ∨ m.state = .beforeValue ∨ m.state = .endTag)
      (read : passWhile? isSpace t = some rest) : Yields dialect before m t .whitespace none rest m
  /-- Space that lets another attribute begin. -/
  | tagSpace {rest : Text} (state : m.state = .startTag ∨ m.state = .attributeNamed)
      (read : passWhile? isSpace t = some rest) :
      Yields dialect before m t .whitespace none rest { m with spaceAfterTag := true }
  /-- Space that ends a value without quotes. -/
  | valueSpace {rest : Text} (state : m.state = .value) (mark : m.valueMark = none)
      (read : passWhile? isSpace t = some rest) :
      Yields dialect before m t .whitespace none rest
        { m with spaceAfterTag := true, state := .startTag }
  /-- Space where a name should stand. -/
  | nameSpace {rest : Text} (state : m.state = .startTagName ∨ m.state = .endTagName)
      (read : passWhile? isSpace t = some rest) :
      Yields dialect before m t .whitespace (some .unexpectedWhitespace) rest m
  -- comments
  | commentStart {rest : Text} (state : m.state = .content ∨ m.state = .inlineContent)
      (read : t = commentOpening ++ rest) :
      Yields dialect before m t .commentStart none rest (m.enter .comment)
  | commentEnd {rest : Text} (state : m.state = .comment) (read : t = commentClosing ++ rest) :
      Yields dialect before m t .commentEnd none rest m.leave
  | commentContent {rest : Text} (state : m.state = .comment) (read : Advances t rest) :
      Yields dialect before m t .commentContent none rest m
  -- prose
  | codeBlockStart {rest : Text} (state : m.state = .content) (prose : dialect ≠ .template)
      (read : t = fence ++ rest) :
      Yields dialect before m t .codeBlockStart none rest (m.goto .fenceInfo)
  | importStatement {error : Option LexError} {rest : Text} (state : m.state = .content)
      (mdx : dialect = .mdx) (read : Advances t rest) :
      Yields dialect before m t .importStatement error rest m
  | closedExpression {inner rest : Text} (state : m.state = .content ∨ m.state = .inlineContent)
      (mdx : dialect = .mdx) (read : t = '{' :: inner ++ '}' :: rest) :
      Yields dialect before m t .blockExpression none rest m
  | openExpression {inner : Text} (state : m.state = .content ∨ m.state = .inlineContent)
      (mdx : dialect = .mdx) (read : t = '{' :: inner) :
      Yields dialect before m t .blockExpression (some .expressionUnterminated) [] m
  | jsxExpression {error : Option LexError} {rest : Text}
      (state : m.state = .content ∨ m.state = .inlineContent) (mdx : dialect = .mdx)
      (read : Advances t rest) : Yields dialect before m t .jsxExpression error rest m
  | proseText (state : m.state = .content ∧ dialect ≠ .template ∨ m.state = .inlineContent)
      (read : atTextEnd dialect t = false) :
      Yields dialect before m t .text none (seek (atTextEnd dialect) t) (m.goto .inlineContent)
  | paragraphEnd {rest : Text} (state : m.state = .inlineContent)
      (read : passLineBreak? t = some rest) :
      Yields dialect before m t .paragraphEnd none rest (m.goto .content)
  -- fenced blocks
  | fenceLineEnd {rest : Text} (state : m.state = .fenceInfo)
      (read : passLineBreak? t = some rest) :
      Yields dialect before m t .whitespace none rest (m.goto .fenceBody)
  | fenceLineSpace {rest : Text} (state : m.state = .fenceInfo)
      (read : passWhile? isLineSpace t = some rest) :
      Yields dialect before m t .whitespace none rest m
  | codeBlockAttribute {rest : Text} (state : m.state = .fenceInfo)
      (read : passWhile? (fun c => !isSpace c) t = some rest) :
      Yields dialect before m t .codeBlockAttribute none rest m
  | codeBlockEnd {rest : Text} (state : m.state = .fenceBody)
      (read : (lineBeginsAfter before = true ∧ t = fence ++ rest) ∨ afterFenceLine? t = some rest) :
      Yields dialect before m t .codeBlockEnd none rest (m.goto .content)
  | codeBlockContent (state : m.state = .fenceBody)
      (line : lineBeginsAfter before = true → strip? fence t = none)
      (read : afterFenceLine? t = none) :
      Yields dialect before m t .codeBlockContent none
        (seek (fun t => (afterFenceLine? t).isSome) t) m
  -- templates
  | endTagOpen {rest : Text} (state : m.state = .content) (template : dialect = .template)
      (read : t = '<' :: '/' :: rest) :
      Yields dialect before m t .endTagOpen none rest (m.goto .endTagName)
  | startTagOpen {rest : Text} (state : m.state = .content) (template : dialect = .template)
      (read : t = '<' :: rest) :
      Yields dialect before m t .startTagOpen none rest (m.goto .startTagName)
  | contentMustache {rest : Text} (state : m.state = .content) (template : dialect = .template)
      (read : t = mustacheOpening ++ rest) :
      Yields dialect before m t .mustacheStart none rest (m.enter .mustache)
  | templateText (state : m.state = .content) (template : dialect = .template)
      (read : atMarkup t = false) : Yields dialect before m t .text none (seek atMarkup t) m
  -- start tags
  | startTag {rest : Text} (state : m.state = .startTagName)
      (read : passElementName? t = some rest) :
      Yields dialect before m t .startTag none rest
        { m with lastTag := Text.before t rest, spaceAfterTag := false, state := .startTag }
  | namelessStart {rest : Text} (state : m.state = .startTagName) (read : Advances t rest) :
      Yields dialect before m t .unknown (some .startTagNameExpected) rest
        { m with lastTag := [], state := .startTag }
  | selfClose {rest : Text} (state : m.state = .startTag) (read : t = '/' :: '>' :: rest) :
      Yields dialect before m t .startTagSelfClose none rest (m.goto .content)
  | startTagClose {rest : Text} (state : m.state = .startTag) (read : t = '>' :: rest) :
      Yields dialect before m t .startTagClose none rest (m.goto (bodyState m.lastTag))
  | startTagBroken {rest : Text} (state : m.state = .startTag) (read : t = '<' :: rest) :
      Yields dialect before m t .startTagClose (some .closingBracketMissing) t (m.goto .content)
  | attributeName {rest : Text} (state : m.state = .startTag) (space : m.spaceAfterTag = true)
      (read : passWhile? inAttributeName t = some rest)
      (name : isDirectiveName (Text.before t rest) = false) :
      Yields dialect before m t .attributeName none rest
        { m with inDirective := false, spaceAfterTag := false, state := .attributeNamed }
  | directiveName {rest : Text} (state : m.state = .startTag) (space : m.spaceAfterTag = true)
      (read : passWhile? inAttributeName t = some rest)
      (name : isDirectiveName (Text.before t rest) = true) :
      Yields dialect before m t .directiveName none rest
        { m with inDirective := true, spaceAfterTag := false, state := .attributeNamed }
  | strayInStartTag {c : Char} {rest : Text} (state : m.state = .startTag) (read : t = c :: rest) :
      Yields dialect before m t .unknown (some .unexpectedCharacterInTag) rest m
  -- values
  | attributeDelimiter {rest : Text} (state : m.state = .attributeNamed)
      (read : t = '=' :: rest) :
      Yields dialect before m t .attributeDelimiter none rest (m.goto .beforeValue)
  | openingMark {mark : Char} {rest : Text} (state : m.state = .beforeValue)
      (read : t = mark :: rest) (quote : mark = '"' ∨ mark = '\'') :
      Yields dialect before m t .attributeMark none rest
        { m with valueMark := some mark, state := .value }
  | unquotedValue {c : Char} {rest : Text} (state : m.state = .value) (mark : m.valueMark = none)
      (here : t = c :: rest) (space : isSpace c = false) (bracket : c ≠ '>')
      (slash : ∀ u, t ≠ '/' :: '>' :: u) :
      Yields dialect before m t .attributeValue none (seek atUnquotedEnd t) m
  | closingMark {mark : Char} {rest : Text} (state : m.state = .value)
      (quoted : m.valueMark = some mark) (read : t = mark :: rest) :
      Yields dialect before m t .attributeMark none rest
        { m with spaceAfterTag := false, state := .startTag }
  | directiveValue {mark : Char} (state : m.state = .value) (quoted : m.valueMark = some mark)
      (directive : m.inDirective = true) (here : startsWith [mark] t = false) :
      Yields dialect before m t .attributeValue none ((HostCode.skipUntil [mark] t).getD []) m
  | valueMustache {mark : Char} {rest : Text} (state : m.state = .value)
      (quoted : m.valueMark = some mark) (directive : m.inDirective = false)
      (read : t = mustacheOpening ++ rest) :
      Yields dialect before m t .mustacheStart none rest (m.enter .mustache)
  | quotedValue {mark : Char} (state : m.state = .value) (quoted : m.valueMark = some mark)
      (directive : m.inDirective = false) (here : atValueStop mark t = false) :
      Yields dialect before m t .attributeValue none (seek (atValueStop mark) t) m
  -- mustaches
  | mustacheEnd {error : Option LexError} {rest : Text} (state : m.state = .mustache)
      (read : t = mustacheClosing ++ rest) :
      Yields dialect before m t .mustacheEnd error rest m.leave
  | mustacheContent {blank : Bool} (state : m.state = .mustache)
      (here : startsWith mustacheClosing t = false) :
      Yields dialect before m t .mustacheContent none
        ((HostCode.skipUntil mustacheClosing t).getD []) { m with blankMustache := blank }
  -- end tags
  | endTag {rest : Text} (state : m.state = .endTagName) (read : passElementName? t = some rest) :
      Yields dialect before m t .endTag none rest (m.goto .endTag)
  | namelessEnd {rest : Text} (state : m.state = .endTagName) (read : Advances t rest) :
      Yields dialect before m t .unknown (some .endTagNameExpected) rest (m.goto .endTag)
  | endTagClose {rest : Text} (state : m.state = .endTag) (read : t = '>' :: rest) :
      Yields dialect before m t .endTagClose none rest (m.goto .content)
  | endTagBroken {rest : Text} (state : m.state = .endTag) (read : t = '<' :: rest) :
      Yields dialect before m t .endTagClose (some .closingBracketMissing) t (m.goto .content)
  | strayInEndTag {c : Char} {rest : Text} (state : m.state = .endTag) (read : t = c :: rest) :
      Yields dialect before m t .unknown (some .closingBracketExpected) rest m
  -- opaque bodies
  | rawText {rest : Text} (e : RawElement)
      (state : m.state = match e with | .script => .scriptBody | .style => .styleBody)
      (body : rest = e.skipBody t) (read : Advances t rest) :
      Yields dialect before m t .rawText none rest (m.goto .content)

/-- The ways to turn to another context in front of the text `t`. -/
inductive Memory.Turns (m : Memory) (t : Text) : Memory → Prop where
  | noValue (state : m.state = .attributeNamed) : Turns m t (m.goto .startTag)
  | noQuote (state : m.state = .beforeValue) :
      Turns m t { m with valueMark := none, state := .value }
  | valueEnds (state : m.state = .value) (mark : m.valueMark = none) :
      Turns m t (m.goto .startTag)
  | noStartName (state : m.state = .startTagName) :
      Turns m t { m with lastTag := [], state := .startTag }
  | noEndName (state : m.state = .endTagName) : Turns m t (m.goto .endTag)
  | noBody (state : m.state = .scriptBody ∨ m.state = .styleBody) : Turns m t (m.goto .content)

/-- What a step does follows a rule. -/
def Move.Obeys (dialect : Dialect) (before : Option Char) (m : Memory) (t : Text) : Move → Prop
  | .token kind error rest m' => m.Yields dialect before t kind error rest m'
  | .turn m' => m.Turns t m'

namespace Memory

variable {dialect : Dialect} {before : Option Char} {m : Memory} {t : Text}

/-! ## Comments and prose -/

theorem scanComment_obeys (ht : t ≠ []) (state : m.state = .comment) :
    (m.scanComment t).Obeys dialect before m t := by
  unfold scanComment
  split
  · next rest h => exact .commentEnd state (strip?_eq_some.1 h)
  · next h =>
    refine .commentContent state (seek_advances ht ?_)
    rw [startsWith, h]
    rfl

theorem scanHostCode?_obeys {move : Move} (mdx : dialect = .mdx)
    (state : m.state = .content ∨ m.state = .inlineContent)
    (h : m.scanHostCode? t = some move) : move.Obeys dialect before m t := by
  unfold scanHostCode? at h
  split at h
  · next u =>
    split at h
    · next rest hr =>
      rw [Option.some.injEq] at h
      subst h
      obtain ⟨v, hv, hb⟩ := Option.bind_eq_some_iff.1 hr
      obtain ⟨inner, rfl⟩ := HostCode.skipUntil_suffix _ _ _ hv
      unfold HostCode.afterBrace at hb
      split at hb
      · rw [Option.some.injEq] at hb
        subst hb
        exact .closedExpression state mdx rfl
      · simp at hb
    · rw [Option.some.injEq] at h
      subst h
      exact .openExpression state mdx rfl
  · next c u =>
    split at h
    · split at h
      · next rest hr =>
        rw [Option.some.injEq] at h
        subst h
        exact .jsxExpression state mdx (.cons (HostCode.skipJsx_suffix _ _ hr))
      · rw [Option.some.injEq] at h
        subst h
        exact .jsxExpression state mdx (nil_advances (by simp))
    · simp at h
  · simp at h

/-- Prose has a rule for every character: what ends a text is taken by another rule before a text
is tried. -/
theorem scanText_obeys
    (state : m.state = .content ∧ dialect ≠ .template ∨ m.state = .inlineContent)
    (here : atTextEnd dialect t = false) : (m.scanText dialect t).Obeys dialect before m t := by
  unfold scanText
  rw [here]
  exact .proseText state here

/-- What ends a text is a line break, the opening of a comment, or in Mdx host code. -/
theorem atTextEnd_eq_false {c : Char} (line : isLineBreak c = false)
    (comment : strip? commentOpening (c :: t) = none)
    (code : dialect = .mdx → m.scanHostCode? (c :: t) = none) :
    atTextEnd dialect (c :: t) = false := by
  have hcode :
      (dialect == .mdx && (c == '{' || (c == '<' && t.head?.any opensElement))) = false := by
    by_cases mdx : dialect = .mdx
    · have h := code mdx
      unfold scanHostCode? at h
      split at h
      · split at h <;> simp at h
      · next c' u heq =>
        obtain ⟨rfl, rfl⟩ := List.cons.inj heq
        split at h
        · split at h <;> simp at h
        · next hopen => simp [hopen]
      · next hbrace hangle =>
        have hb : c ≠ '{' := fun hc => hbrace t (by rw [hc])
        -- a `<` with something behind it was tried as an element before
        have ha : c = '<' → t = [] := by
          intro hc
          cases t with
          | nil => rfl
          | cons d u => exact absurd (by rw [hc]) (hangle d u)
        by_cases hc : c = '<'
        · simp [hc, ha hc]
        · simp [hb, hc]
    · simp [mdx]
  simp [atTextEnd, line, hcode, startsWith, comment]

theorem scanImport?_obeys {move : Move} (mdx : dialect = .mdx) (state : m.state = .content)
    (h : m.scanImport? t = some move) : move.Obeys dialect before m t := by
  unfold scanImport? at h
  split at h
  · next hat =>
    have hlen : HostCode.importKeyword ≠ [] := by decide
    -- the keyword stands here, so what is read behind it is read forward
    have hstart : startsWith HostCode.importKeyword t = true := by
      unfold HostCode.atImport at hat
      rw [startsWith]
      cases hs : strip? HostCode.importKeyword t with
      | none => simp [hs] at hat
      | some u => rfl
    obtain ⟨u, rfl⟩ := startsWith_iff.1 hstart
    rw [List.drop_left] at h
    have hadv : Advances (HostCode.importKeyword ++ u) (HostCode.skipImport u).2 :=
      (advances_append hlen).of_suffix (HostCode.skipImport_suffix u)
    split at h
    · next rest hr =>
      rw [Option.some.injEq] at h
      subst h
      exact .importStatement state mdx (by rw [hr] at hadv; exact hadv)
    · next rest hr =>
      rw [Option.some.injEq] at h
      subst h
      exact .importStatement state mdx (by rw [hr] at hadv; exact hadv)
  · simp at h

theorem passLineBreak?_eq_none {c : Char} {u : Text} (h : passLineBreak? (c :: u) = none) :
    isLineBreak c = false := by
  unfold passLineBreak? at h
  split at h
  · simp at h
  · next heq =>
    obtain ⟨rfl, rfl⟩ := List.cons.inj heq
    split at h
    · simp at h
    · next hc => simpa using hc
  · next heq => simp at heq

theorem isLineBreak_of_isSpace {c : Char} (h : isSpace c = false) : isLineBreak c = false := by
  rw [isSpace, Bool.or_eq_false_iff] at h
  exact h.2

theorem scanLineStart_obeys (ht : t ≠ []) (prose : dialect ≠ .template) (state : m.state = .content)
    (space : passWhile? isSpace t = none) (comment : strip? commentOpening t = none) :
    (m.scanLineStart dialect t).Obeys dialect before m t := by
  obtain ⟨c, u, rfl⟩ := List.exists_cons_of_ne_nil ht
  have line : isLineBreak c = false := isLineBreak_of_isSpace (passWhile?_eq_none space)
  unfold scanLineStart
  split
  · next rest h => exact .codeBlockStart state prose (strip?_eq_some.1 h)
  · split
    · next mdx =>
      cases hi : m.scanImport? (c :: u) with
      | some move => exact scanImport?_obeys mdx state hi
      | none =>
        cases hc : m.scanHostCode? (c :: u) with
        | some move => exact scanHostCode?_obeys mdx (.inl state) hc
        | none =>
          exact scanText_obeys (.inl ⟨state, prose⟩) (atTextEnd_eq_false line comment fun _ => hc)
    · next mdx =>
      -- in Markdown host code is text like any other
      exact scanText_obeys (.inl ⟨state, prose⟩)
        (atTextEnd_eq_false (m := m) line comment fun h => absurd h mdx)

theorem scanInline_obeys (ht : t ≠ []) (state : m.state = .inlineContent) :
    (m.scanInline dialect t).Obeys dialect before m t := by
  obtain ⟨c, u, rfl⟩ := List.exists_cons_of_ne_nil ht
  unfold scanInline
  split
  · next rest h => exact .paragraphEnd state h
  · next hline =>
    have line : isLineBreak c = false := passLineBreak?_eq_none hline
    split
    · next rest h => exact .commentStart (.inr state) (strip?_eq_some.1 h)
    · next comment =>
      split
      · next mdx =>
        cases hc : m.scanHostCode? (c :: u) with
        | some move => exact scanHostCode?_obeys mdx (.inr state) hc
        | none =>
          exact scanText_obeys (.inr state) (atTextEnd_eq_false line comment fun _ => hc)
      · next mdx =>
        exact scanText_obeys (.inr state)
          (atTextEnd_eq_false (m := m) line comment fun h => absurd h mdx)

/-! ## Fenced blocks -/

theorem scanFenceInfo_obeys (ht : t ≠ []) (state : m.state = .fenceInfo) :
    (m.scanFenceInfo t).Obeys dialect before m t := by
  obtain ⟨c, u, rfl⟩ := List.exists_cons_of_ne_nil ht
  unfold scanFenceInfo
  split
  · next rest h => exact .fenceLineEnd state h
  · next hline =>
    split
    · next rest h => exact .fenceLineSpace state h
    · next hspace =>
      -- neither blank nor line break: what is left is a word, which has a character at least
      have space : isSpace c = false := by
        rw [isSpace, passWhile?_eq_none hspace, passLineBreak?_eq_none hline]
        rfl
      refine .codeBlockAttribute state ?_
      simp [passWhile?, space]

theorem scanFenceBody_obeys (state : m.state = .fenceBody) :
    (m.scanFenceBody before t).Obeys dialect before m t := by
  unfold scanFenceBody
  by_cases line : lineBeginsAfter before = true
  · simp only [line, if_true]
    cases hf : strip? fence t with
    | some rest => exact .codeBlockEnd state (.inl ⟨line, strip?_eq_some.1 hf⟩)
    | none =>
      cases ha : afterFenceLine? t with
      | some rest => exact .codeBlockEnd state (.inr ha)
      | none => exact .codeBlockContent state (fun _ => hf) ha
  · simp only [line, if_false, Bool.false_eq_true]
    cases ha : afterFenceLine? t with
    | some rest => exact .codeBlockEnd state (.inr ha)
    | none => exact .codeBlockContent state (fun h => absurd h line) ha

/-! ## Templates -/

theorem scanTemplate_obeys (template : dialect = .template) (state : m.state = .content) :
    (m.scanTemplate t).Obeys dialect before m t := by
  unfold scanTemplate
  split
  · next u => exact .endTagOpen state template rfl
  · next u _ => exact .startTagOpen state template rfl
  · next u => exact .contentMustache state template rfl
  · next hend hstart hmustache =>
    refine .templateText state template ?_
    have hm : startsWith mustacheOpening t = false := by
      rw [Bool.eq_false_iff]
      intro h
      obtain ⟨u, hu⟩ := startsWith_iff.1 h
      exact hmustache u hu
    unfold atMarkup
    split
    · exact absurd rfl (hstart _)
    · exact hm

theorem scanNameless_obeys {error : LexError} {m' : Memory}
    (token : ∀ rest, Advances t rest → m.Yields dialect before t .unknown (some error) rest m')
    (turn : m.Turns t m') : (m'.scanNameless error t).Obeys dialect before m t := by
  unfold scanNameless
  dsimp only
  split
  · next h => exact token _ ⟨seekAny_suffix _ t, h⟩
  · exact turn

theorem scanStartTagName_obeys (state : m.state = .startTagName) :
    (m.scanStartTagName t).Obeys dialect before m t := by
  unfold scanStartTagName
  split
  · next rest h => exact .startTag state h
  · split
    · next rest h => exact .nameSpace (.inl state) h
    · exact scanNameless_obeys (fun rest h => .namelessStart state h) (.noStartName state)

theorem scanAttributeName?_obeys {move : Move} (state : m.state = .startTag)
    (h : m.scanAttributeName? t = some move) : move.Obeys dialect before m t := by
  unfold scanAttributeName? at h
  split at h
  · next space =>
    obtain ⟨rest, hr, rfl⟩ := Option.map_eq_some_iff.1 h
    cases hd : isDirectiveName (Text.before t rest) with
    | true => simpa [Move.plain, hd] using .directiveName state space hr hd
    | false => simpa [Move.plain, hd] using .attributeName state space hr hd
  · simp at h

theorem scanStartTag_obeys (ht : t ≠ []) (state : m.state = .startTag) :
    (m.scanStartTag t).Obeys dialect before m t := by
  unfold scanStartTag
  split
  · next rest h => exact .tagSpace (.inl state) h
  · split
    · exact .selfClose state rfl
    · exact .startTagClose state rfl
    · exact .startTagBroken state rfl
    · cases ha : m.scanAttributeName? t with
      | some move => exact scanAttributeName?_obeys state ha
      | none =>
        obtain ⟨c, u, rfl⟩ := List.exists_cons_of_ne_nil ht
        exact .strayInStartTag state rfl

/-! ## Values -/

theorem scanAttributeNamed_obeys (state : m.state = .attributeNamed) :
    (m.scanAttributeNamed t).Obeys dialect before m t := by
  unfold scanAttributeNamed
  split
  · next rest h => exact .tagSpace (.inr state) h
  · split
    · exact .attributeDelimiter state rfl
    · exact .noValue state

theorem scanBeforeValue_obeys (state : m.state = .beforeValue) :
    (m.scanBeforeValue t).Obeys dialect before m t := by
  unfold scanBeforeValue
  split
  · next rest h => exact .space (.inr (.inl state)) h
  · split
    · exact .openingMark state rfl (.inl rfl)
    · exact .openingMark state rfl (.inr rfl)
    · exact .noQuote state

theorem scanUnquotedValue_obeys (ht : t ≠ []) (state : m.state = .value)
    (mark : m.valueMark = none) : (m.scanUnquotedValue t).Obeys dialect before m t := by
  unfold scanUnquotedValue
  split
  · next rest h => exact .valueSpace state mark h
  · next hspace =>
    split
    · exact .valueEnds state mark
    · exact .valueEnds state mark
    · next hbracket hslash =>
      obtain ⟨c, u, rfl⟩ := List.exists_cons_of_ne_nil ht
      exact .unquotedValue state mark rfl (passWhile?_eq_none hspace)
        (fun hc => hbracket u (by rw [hc])) hslash

theorem scanQuotedValue_obeys {mark : Char} (ht : t ≠ []) (state : m.state = .value)
    (quoted : m.valueMark = some mark) :
    (m.scanQuotedValue mark t).Obeys dialect before m t := by
  obtain ⟨c, u, rfl⟩ := List.exists_cons_of_ne_nil ht
  simp only [scanQuotedValue]
  split
  · next hc =>
    rw [hc]
    exact .closingMark state quoted rfl
  · next hc =>
    split
    · next directive =>
      refine .directiveValue state quoted directive ?_
      simp [startsWith, strip?, Ne.symm hc]
    · next directive =>
      split
      · next rest h =>
          exact .valueMustache state quoted (by simpa using directive) (strip?_eq_some.1 h)
      · next h =>
        refine .quotedValue state quoted (by simpa using directive) ?_
        simp [atValueStop, hc, startsWith, h]

theorem scanMustache_obeys (state : m.state = .mustache) :
    (m.scanMustache t).Obeys dialect before m t := by
  unfold scanMustache
  split
  · next rest h =>
    have hr : t = mustacheClosing ++ rest := strip?_eq_some.1 h
    extract_lets isEmpty
    split
    · exact .mustacheEnd state hr
    · exact .mustacheEnd state hr
  · next h =>
    refine .mustacheContent state ?_
    rw [startsWith, h]
    rfl

/-! ## End tags and opaque bodies -/

theorem scanEndTagName_obeys (state : m.state = .endTagName) :
    (m.scanEndTagName t).Obeys dialect before m t := by
  unfold scanEndTagName
  split
  · next rest h => exact .endTag state h
  · split
    · next rest h => exact .nameSpace (.inr state) h
    · exact scanNameless_obeys (fun rest h => .namelessEnd state h) (.noEndName state)

theorem scanEndTag_obeys (ht : t ≠ []) (state : m.state = .endTag) :
    (m.scanEndTag t).Obeys dialect before m t := by
  unfold scanEndTag
  split
  · next rest h => exact .space (.inr (.inr state)) h
  · split
    · exact .endTagClose state rfl
    · exact .endTagBroken state rfl
    · obtain ⟨c, u, rfl⟩ := List.exists_cons_of_ne_nil ht
      exact .strayInEndTag state rfl

theorem scanRawText_obeys (e : RawElement)
    (state : m.state = match e with | .script => .scriptBody | .style => .styleBody) :
    (m.scanRawText e t).Obeys dialect before m t := by
  unfold scanRawText
  dsimp only
  split
  · next h => exact .rawText e state rfl ⟨e.skipBody_suffix t, h⟩
  · refine .noBody ?_
    cases e with
    | script => exact .inl state
    | style => exact .inr state

/-! ## All contexts -/

/-- **Every step follows a rule.** -/
theorem step_obeys (ht : t ≠ []) : (m.step dialect before t).Obeys dialect before m t := by
  obtain ⟨c, u, rfl⟩ := List.exists_cons_of_ne_nil ht
  simp only [step, stepWithin]
  split
  case h_1 state =>
    split
    · next rest h => exact .space (.inl state) h
    · next space =>
      split
      · next rest h => exact .commentStart (.inl state) (strip?_eq_some.1 h)
      · next comment =>
        cases dialect with
        | template => exact scanTemplate_obeys rfl state
        | markdown => exact scanLineStart_obeys ht (by decide) state space comment
        | mdx => exact scanLineStart_obeys ht (by decide) state space comment
  case h_2 state => exact scanInline_obeys ht state
  case h_3 state => exact scanComment_obeys ht state
  case h_4 state => exact scanFenceInfo_obeys ht state
  case h_5 state => exact scanFenceBody_obeys state
  case h_6 state => exact scanStartTagName_obeys state
  case h_7 state => exact scanStartTag_obeys ht state
  case h_8 state => exact scanAttributeNamed_obeys state
  case h_9 state => exact scanBeforeValue_obeys state
  case h_10 state =>
    unfold scanValue
    split
    · next mark => exact scanUnquotedValue_obeys ht state mark
    · next mark quoted => exact scanQuotedValue_obeys ht state quoted
  case h_11 state => exact scanMustache_obeys state
  case h_12 state => exact scanEndTagName_obeys state
  case h_13 state => exact scanEndTag_obeys ht state
  case h_14 state => exact scanRawText_obeys .script state
  case h_15 state => exact scanRawText_obeys .style state

end Memory

end HybridMarkup
