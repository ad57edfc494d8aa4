/-
Reading prose: how the tokens of a prose document become its tree.

What a prose document is dealt out into is first said of its tokens alone (`Deal.take`): imports,
elements and the insides of expressions are pieces of the script, texts are pieces of the prose,
and the body of a fenced block is a piece of the prose unless the first word behind the fence names
a host language, in which case the block is a piece and its body another. Then it is shown that the
tree has the same pieces in the same order (`pieces_of_tree`). The scanner and the draft go in
step: which nodes are open is known from the context of the scanner, and while a fenced block is
read it is the newest node, with the language that the tokens have announced and without a body
until there is one.
-/
import HybridMarkup.Artifact.Prose
import HybridMarkup.Proofs.Drafts
import HybridMarkup.Proofs.Progress

set_option autoImplicit false

namespace HybridMarkup

open Text

/-- What stands between the braces of an expression, the last of which may be missing. -/
def Token.interior (t : Token) : Span :=
  ⟨t.span.start + 1, if t.error.isNone then t.span.stop - 1 else t.span.stop⟩

/-- The inside of an expression that is closed. -/
theorem Token.Reads.interior_closed {t : Token} {text inner : Text} {pos pos' : Nat}
    (h : t.Reads text pos pos') (herror : t.error = none)
    (hlexeme : t.lexeme = '{' :: inner ++ ['}']) :
    Braces text t.span t.interior ∧ slice text t.interior = inner := by
  have hslice : slice text t.span = ['{'] ++ (inner ++ ['}']) := by rw [← h.lexeme, hlexeme]; rfl
  obtain ⟨hcuts, hinner⟩ := h.cuts.part hslice
  have hlength := h.cuts.size_slice
  rw [hslice, size_append, size_append, Span.length, show size ['{'] = 1 from rfl,
    show size ['}'] = 1 from rfl] at hlength
  have hspan : Span.ofLength (t.span.start + size ['{']) (size inner) = t.interior := by
    rw [Token.interior, herror, Span.ofLength, show size ['{'] = 1 from rfl]
    show (⟨_, _⟩ : Span) = ⟨_, t.span.stop - 1⟩
    rw [show t.span.start + 1 + size inner = t.span.stop - 1 by omega]
  rw [hspan] at hcuts hinner
  have hstop : t.interior.stop = t.span.stop - 1 := by rw [Token.interior, herror]; rfl
  refine ⟨⟨h.cuts, hcuts, rfl, .inl ⟨by rw [hslice, hinner]; rfl, ?_⟩⟩, hinner⟩
  omega

/-- The inside of an expression that runs to the end of the document. -/
theorem Token.Reads.interior_open {t : Token} {text inner : Text} {pos pos' : Nat}
    (h : t.Reads text pos pos') (herror : t.error.isSome = true)
    (hlexeme : t.lexeme = '{' :: inner) :
    Braces text t.span t.interior ∧ slice text t.interior = inner := by
  have hslice : slice text t.span = ['{'] ++ (inner ++ []) := by rw [← h.lexeme, hlexeme]; simp
  obtain ⟨hcuts, hinner⟩ := h.cuts.part hslice
  have hlength := h.cuts.size_slice
  rw [hslice, size_append, size_append, Span.length, show size ['{'] = 1 from rfl,
    show size [] = 0 from rfl] at hlength
  have hnone : t.error.isNone = false := by rw [← Option.not_isSome, herror]; rfl
  have hstop : t.interior.stop = t.span.stop := by rw [Token.interior, hnone]; rfl
  have hspan : Span.ofLength (t.span.start + size ['{']) (size inner) = t.interior := by
    rw [Token.interior, hnone, Span.ofLength, show size ['{'] = 1 from rfl]
    show (⟨_, _⟩ : Span) = ⟨_, t.span.stop⟩
    rw [show t.span.start + 1 + size inner = t.span.stop by omega]
  rw [hspan] at hcuts hinner
  refine ⟨⟨h.cuts, hcuts, rfl, .inr ⟨by rw [hslice, hinner, List.append_nil]; rfl, hstop⟩⟩, hinner⟩

namespace ProseArtifacts

/-! ## What is dealt out -/

/-- A part of a prose document that is copied into an artifact. -/
inductive Piece where
  | script (source : Span)
  | prose (source : Span)
  /-- A block of the host language begins. -/
  | block
  /-- The body of the block that began last. -/
  | body (source : Span)
deriving DecidableEq, Repr

/-- Whether the first word behind a fence names a host language. -/
def isHost (language : Option Text) : Bool := (language.bind HostLanguage.ofName?).isSome

/-- The pieces so far, and the first word behind the last fence. -/
structure Deal where
  pieces : List Piece := []
  language : Option Text := none
deriving DecidableEq, Repr

/-- Adds a piece. -/
def Deal.add (deal : Deal) (piece : Piece) : Deal :=
  { deal with pieces := deal.pieces ++ [piece] }

/-- What a token adds. -/
def Deal.take (deal : Deal) (t : Token) : Deal :=
  match t.kind with
  | .importStatement | .jsxExpression => deal.add (.script t.span)
  | .blockExpression => deal.add (.script t.interior)
  | .text => deal.add (.prose t.span)
  | .codeBlockStart => { deal with language := none }
  | .codeBlockAttribute =>
    if deal.language.isSome then deal
    else
      { pieces := deal.pieces ++ if isHost (some t.lexeme) then [.block] else []
        language := some t.lexeme }
  | .codeBlockContent =>
    deal.add (if isHost deal.language then .body t.span else .prose t.span)
  | _ => deal

/-- The pieces of a fenced block. -/
def blockPieces (block : CodeBlock) : List Piece :=
  (if isHost block.lang then [.block] else []) ++
    if block.text.isEmpty then []
    else [if isHost block.lang then .body block.contentSpan else .prose block.contentSpan]

/-- The pieces of a tree, node by node. -/
def pieces : Gather Piece where
  of _ _ data span :=
    match data with
    | .text _ => [.prose span]
    | .importStatement _ | .jsxStatement _ => [.script span]
    | .expressionStatement _ inner _ => [.script inner]
    | .codeBlock block => blockPieces block
    | _ => []
  silent _ _ data _ h := by
    cases data <;> first | rfl | simp [NodeData.kind, NodeKind.isSilent] at h
  steady _ _ data _ _ h := by
    cases data <;> first | rfl | simp [NodeData.kind, NodeKind.isLeaf] at h

/-! ## The scanner and the draft in step -/

/-- The draft fits the context of the scanner in front of the text `rest`. -/
def Synced (dialect : Dialect) (text : Text) (m : Memory) (rest : Text) (pos : Nat) (deal : Deal)
    (d : Draft) : Prop :=
  match m.state with
  | .content => d.Stands pieces dialect text pos [.root] deal.pieces
  | .inlineContent => d.Stands pieces dialect text pos [.paragraph, .root] deal.pieces
  | .comment =>
    (m.returnState = .content ∧ d.Stands pieces dialect text pos [.comment, .root] deal.pieces) ∨
      (m.returnState = .inlineContent ∧
        d.Stands pieces dialect text pos [.comment, .paragraph, .root] deal.pieces)
  | .fenceInfo =>
    d.Stands pieces dialect text pos [.codeBlock, .root] deal.pieces ∧
      d.current + 1 = d.tree.size ∧
      ∃ block, d.currentData = .codeBlock block ∧ block.lang = deal.language ∧ block.text = [] ∧
        (block.lang = none → block.attrs = [])
  | .fenceBody =>
    d.Stands pieces dialect text pos [.codeBlock, .root] deal.pieces ∧
      d.current + 1 = d.tree.size ∧
      ∃ block, d.currentData = .codeBlock block ∧ block.lang = deal.language ∧
        (block.text = [] ∨ rest = [] ∨ (afterFenceLine? rest).isSome = true)
  | _ => False

variable {dialect : Dialect} {text rest : Text} {m : Memory} {pos pos' : Nat} {deal : Deal}
  {d : Draft} {t : Token}

theorem Synced.reportLexical (h : Synced dialect text m rest pos deal d) (error : LexError)
    (span : Span) : Synced dialect text m rest pos deal (d.reportLexical error span) := by
  unfold Synced at h ⊢
  split at h
  · exact h.reportLexical error span
  · exact h.reportLexical error span
  · exact h.imp (fun h => ⟨h.1, h.2.reportLexical error span⟩)
      fun h => ⟨h.1, h.2.reportLexical error span⟩
  · exact ⟨h.1.reportLexical error span, h.2⟩
  · exact ⟨h.1.reportLexical error span, h.2⟩
  · exact h

/-- The fault of a token does not matter. -/
theorem Synced.takeToken (h : Synced dialect text m rest pos deal (d.build t)) :
    Synced dialect text m rest pos deal (d.takeToken t) := by
  unfold Draft.takeToken
  split
  · exact h.reportLexical _ _
  · exact h

/-! ## One token -/

theorem nests_root (dialect : Dialect) : dialect.nests .root = true := by cases dialect <;> rfl

theorem nests_paragraph (prose : dialect ≠ .template) : dialect.nests .paragraph = true := by
  cases dialect with
  | template => exact absurd rfl prose
  | markdown | mdx => rfl

section Rules

variable {path : List NodeKind} {xs : List Piece}

theorem proseText_stands (prose : dialect ≠ .template)
    (h : d.Stands pieces dialect text pos path xs)
    (hpath : path = [.root] ∨ path = [.paragraph, .root]) (ht : t.Reads text pos pos') :
    (d.proseText t).Stands pieces dialect text pos' [.paragraph, .root]
      (xs ++ [.prose t.span]) := by
  have hle : t.span.start ≤ pos' := ht.start ▸ ht.le
  have h := h.mono ht.le
  unfold Draft.proseText
  rcases hpath with rfl | rfl
  · rw [if_neg (by rw [h.kind_eq]; decide)]
    have hopen := h.openNode (nests_root dialect) .paragraph rfl rfl ht.cuts hle trivial
    have hleaf := hopen.leaf (nests_paragraph prose) (.text t.lexeme) ht.cuts hle trivial
    rwa [show pieces.of d.tree.size (some d.current) .paragraph t.span = [] from rfl,
      List.append_nil] at hleaf
  · rw [if_pos h.kind_eq]
    exact h.leaf (nests_paragraph prose) (.text t.lexeme) ht.cuts hle trivial

/-- An expression is the token between its braces. -/
theorem blockExpression_stands {k : NodeKind} (hnests : dialect.nests k = true)
    (h : d.Stands pieces dialect text pos (k :: path) xs) (ht : t.Reads text pos pos')
    (hbraces : t.error = none ∧ (∃ inner, t.lexeme = '{' :: inner ++ ['}']) ∨
      t.error.isSome = true ∧ ∃ inner, t.lexeme = '{' :: inner) :
    (d.blockExpression t).Stands pieces dialect text pos' (k :: path)
      (xs ++ [.script t.interior]) := by
  have hle : t.span.start ≤ pos' := ht.start ▸ ht.le
  have h := h.mono ht.le
  unfold Draft.blockExpression
  rcases hbraces with ⟨herror, inner, hlexeme⟩ | ⟨herror, inner, hlexeme⟩
  · obtain ⟨hbraces, hinner⟩ := ht.interior_closed herror hlexeme
    have hspan : t.interior = ⟨t.span.start + 1, t.span.stop - 1⟩ := by
      rw [Token.interior, herror]
      rfl
    have hdrop : (t.lexeme.drop 1).dropLast = inner := by rw [hlexeme]; simp
    simp only [herror, Option.isNone_none, if_true, hdrop, ← hspan]
    exact h.leaf hnests (.expressionStatement inner t.interior _) ht.cuts hle
      ⟨hinner.symm, hbraces⟩
  · obtain ⟨hbraces, hinner⟩ := ht.interior_open herror hlexeme
    have hnone : t.error.isNone = false := by rw [← Option.not_isSome, herror]; rfl
    have hspan : t.interior = ⟨t.span.start + 1, t.span.stop⟩ := by
      rw [Token.interior, hnone]
      rfl
    have hdrop : t.lexeme.drop 1 = inner := by rw [hlexeme]; rfl
    simp only [hnone, Bool.false_eq_true, if_false, hdrop, ← hspan]
    exact h.leaf hnests (.expressionStatement inner t.interior _) ht.cuts hle
      ⟨hinner.symm, hbraces⟩

theorem gatherAt_block {block : CodeBlock} (hdata : d.currentData = .codeBlock block) :
    d.tree.gatherAt pieces d.current = blockPieces block := by
  rw [Tree.gatherAt, show d.tree.data d.current = .codeBlock block from hdata]
  rfl

theorem sound_block {block : CodeBlock} (h : d.Stands pieces dialect text pos path xs)
    (hdata : d.currentData = .codeBlock block) :
    block.contentSpan.Cuts text ∧ block.text = slice text block.contentSpan ∧
      (⟨(d.tree.span d.current).start, block.openerEnd⟩ : Span).Cuts text := by
  have hsound := h.sound d.current h.current_lt
  rwa [show d.tree.data d.current = .codeBlock block from hdata] at hsound

/-- A fence opens a block of which nothing is known. -/
theorem codeBlockStart_synced (h : d.Stands pieces dialect text pos [.root] deal.pieces)
    (ht : t.Reads text pos pos') (hkind : t.kind = .codeBlockStart) :
    Synced dialect text (m.goto .fenceInfo) rest pos' (deal.take t) (d.codeBlockStart t) := by
  have hle : t.span.start ≤ pos' := ht.start ▸ ht.le
  have h := h.mono ht.le
  have hopen := h.openNode (nests_root dialect)
    (.codeBlock { lang := none, attrs := [], text := [], contentSpan := Span.empty t.span.stop,
                  openerEnd := t.span.stop }) rfl rfl ht.cuts hle
    ⟨Span.cuts_empty ht.cuts.stop, (Span.slice_empty _ _).symm, ht.cuts⟩
  rw [Deal.take, hkind]
  refine ⟨?_, Draft.openNode_last .., _, Draft.currentData_openNode _ _ h.current_lt, rfl, rfl,
    fun _ => rfl⟩
  rwa [show pieces.of d.tree.size (some d.current) (.codeBlock _) t.span = [] from rfl,
    List.append_nil] at hopen

/-- The first word behind a fence announces the language. -/
theorem firstWord_synced (state : m.state = .fenceInfo)
    (h : d.Stands pieces dialect text pos [.codeBlock, .root] deal.pieces)
    (hlast : d.current + 1 = d.tree.size) {block : CodeBlock}
    (hdata : d.currentData = .codeBlock block) (hlang : block.lang = none)
    (htext : block.text = []) (hattrs : block.attrs = []) (hlanguage : deal.language = none)
    (ht : t.Reads text pos pos') (hkind : t.kind = .codeBlockAttribute) :
    Synced dialect text m rest pos' (deal.take t) (d.codeBlockAttribute t) := by
  obtain ⟨hcontent, hslice, _⟩ := sound_block h hdata
  have hopener := h.cuts_to h.current_lt ht.cuts.stop (ht.start ▸ ht.cuts.ordered)
  -- without a language and without a text the block has contributed nothing yet
  have hnothing : d.tree.gatherAt pieces d.current = [] := by
    rw [gatherAt_block hdata, blockPieces, hlang, htext]
    rfl
  have hfill := (h.mono ht.le).fill hlast
    (.codeBlock { block with openerEnd := t.span.stop, lang := some t.lexeme })
    (Tree.kind_of_data hdata).symm ⟨hcontent, hslice, hopener⟩ (by rw [hnothing, List.append_nil])
  have hpieces : deal.pieces ++ pieces.of d.current (d.tree.parent d.current)
        (.codeBlock { block with openerEnd := t.span.stop, lang := some t.lexeme })
        (d.tree.span d.current)
      = (deal.take t).pieces := by
    show deal.pieces ++ blockPieces _ = _
    simp only [blockPieces, htext, Deal.take, hkind, hlanguage]
    simp
  have htake : (deal.take t).language = some t.lexeme := by
    simp [Deal.take, hkind, hlanguage]
  have hempty : block.attrs.isEmpty = true := by rw [hattrs]; rfl
  rw [hpieces] at hfill
  simp only [Synced, state, Draft.codeBlockAttribute, hdata, hlang, hempty, Option.isNone_none,
    Bool.and_true, if_true]
  refine ⟨hfill.extend ht.cuts.stop, ?_,
    { block with openerEnd := t.span.stop, lang := some t.lexeme }, ?_, htake.symm, htext,
    fun _ => hattrs⟩
  · rw [Draft.size_extend, Draft.size_setCurrent]
    exact hlast
  · rw [Draft.currentData_extend]
    exact Draft.currentData_setCurrent _ h.current_lt

/-- Further words behind a fence change nothing that matters. -/
theorem furtherWord_synced (state : m.state = .fenceInfo)
    (h : d.Stands pieces dialect text pos [.codeBlock, .root] deal.pieces)
    (hlast : d.current + 1 = d.tree.size) {block : CodeBlock}
    (hdata : d.currentData = .codeBlock block) (hlang : block.lang.isSome = true)
    (htext : block.text = []) (hlanguage : block.lang = deal.language)
    (ht : t.Reads text pos pos') (hkind : t.kind = .codeBlockAttribute) :
    Synced dialect text m rest pos' (deal.take t) (d.codeBlockAttribute t) := by
  obtain ⟨hcontent, hslice, _⟩ := sound_block h hdata
  have hopener := h.cuts_to h.current_lt ht.cuts.stop (ht.start ▸ ht.cuts.ordered)
  have htake : deal.take t = deal := by simp [Deal.take, hkind, ← hlanguage, hlang]
  have hset := (h.mono ht.le).setData (i := d.current)
    (.codeBlock
      { block with
        attrs := block.attrs ++ [Draft.splitAttr t.lexeme]
        openerEnd := t.span.stop })
    (Tree.kind_of_data hdata).symm ⟨hcontent, hslice, hopener⟩ (gatherAt_block hdata).symm
  have hnone : block.lang.isNone = false := by rw [← Option.not_isSome, hlang]; rfl
  simp only [Synced, state, Draft.codeBlockAttribute, hdata, hnone, Bool.false_and,
    Bool.false_eq_true, if_false, htake]
  refine ⟨?_, ?_,
    { block with
      attrs := block.attrs ++ [Draft.splitAttr t.lexeme]
      openerEnd := t.span.stop },
    ?_, hlanguage, htext, fun hunknown => ?_⟩
  · refine Draft.Stands.extend ?_ ht.cuts.stop
    split
    · exact hset.report _ _
    · exact hset
  · rw [Draft.size_extend]
    split
    · exact (Draft.size_setCurrent ..).symm ▸ hlast
    · exact (Draft.size_setCurrent ..).symm ▸ hlast
  · rw [Draft.currentData_extend]
    split
    · exact Draft.currentData_setCurrent _ h.current_lt
    · exact Draft.currentData_setCurrent _ h.current_lt
  · rw [show block.lang = none from hunknown] at hlang
    simp at hlang

/-- The body of a block is read once. -/
theorem codeBlockContent_synced (state : m.state = .fenceBody)
    (h : d.Stands pieces dialect text pos [.codeBlock, .root] deal.pieces)
    (hlast : d.current + 1 = d.tree.size) {block : CodeBlock}
    (hdata : d.currentData = .codeBlock block) (hlanguage : block.lang = deal.language)
    (htext : block.text = []) (ht : t.Reads text pos pos') (hkind : t.kind = .codeBlockContent)
    (hlexeme : t.lexeme ≠ []) (hrest : rest = [] ∨ (afterFenceLine? rest).isSome = true) :
    Synced dialect text m rest pos' (deal.take t) (d.codeBlockContent t) := by
  obtain ⟨_, _, hopener⟩ := sound_block h hdata
  obtain ⟨ys, hys⟩ := h.split_last hlast
  have hfill := (h.mono ht.le).fill hlast
    (.codeBlock { block with text := t.lexeme, contentSpan := t.span })
    (Tree.kind_of_data hdata).symm ⟨ht.cuts, ht.lexeme, hopener⟩ hys
  have hpieces : ys ++ pieces.of d.current (d.tree.parent d.current)
        (.codeBlock { block with text := t.lexeme, contentSpan := t.span })
        (d.tree.span d.current)
      = (deal.take t).pieces := by
    have hempty : t.lexeme.isEmpty = false := by simpa using hlexeme
    rw [gatherAt_block hdata] at hys
    show ys ++ blockPieces _ = _
    simp only [Deal.take, Deal.add, hkind, hys, blockPieces, htext, hempty, ← hlanguage]
    simp
  have htake : (deal.take t).language = deal.language := by simp only [Deal.take, Deal.add, hkind]
  rw [hpieces] at hfill
  simp only [Synced, state, Draft.codeBlockContent, hdata]
  refine ⟨hfill.extend ht.cuts.stop, ?_, { block with text := t.lexeme, contentSpan := t.span }, ?_,
    hlanguage.trans htake.symm, .inr hrest⟩
  · rw [Draft.size_extend, Draft.size_setCurrent]
    exact hlast
  · rw [Draft.currentData_extend]
    exact Draft.currentData_setCurrent _ h.current_lt

/-- A closing fence leads back to the document. -/
theorem codeBlockEnd_stands (h : d.Stands pieces dialect text pos [.codeBlock, .root] xs)
    {block : CodeBlock} (hdata : d.currentData = .codeBlock block) (ht : t.Reads text pos pos') :
    (d.codeBlockEnd t).Stands pieces dialect text pos' [.root] xs := by
  obtain ⟨_, _, hopener⟩ := sound_block h hdata
  have h := h.mono ht.le
  simp only [Draft.codeBlockEnd, hdata]
  refine Draft.Stands.close (k := .codeBlock) ?_ ht.cuts.stop
  split
  · next hempty =>
    have htext : block.text = [] := by simpa using hempty
    refine h.setData (.codeBlock { block with contentSpan := Span.empty t.span.start })
      (Tree.kind_of_data hdata).symm ⟨Span.cuts_empty ht.cuts.start, ?_, hopener⟩ ?_
    · rw [Span.slice_empty]
      exact htext
    · rw [gatherAt_block hdata]
      show blockPieces _ = blockPieces _
      simp only [blockPieces, htext]
      rfl
  · exact h

end Rules

variable {before : Option Char} {u : Text} {kind : TokenKind} {error : Option LexError}
  {m' : Memory}

/-- **A token of prose keeps the scanner and the draft in step.** -/
theorem Synced.step (prose : dialect ≠ .template) (h : Synced dialect text m u pos deal d)
    (hu : u ≠ []) (hy : m.Yields dialect before u kind error rest m') (ht : t.Reads text pos pos')
    (hkind : t.kind = kind) (herror : t.error = error) (hreads : u = t.lexeme ++ rest) :
    Synced dialect text m' rest pos' (deal.take t) (d.build t) := by
  have hle : t.span.start ≤ pos' := ht.start ▸ ht.le
  -- the rules of templates are excluded, by the dialect or by the context they ask for
  have hnotemplate {P : Prop} (template : dialect = .template) : P := absurd template prose
  cases hy with
  | endTagOpen _ template _ | startTagOpen _ template _ | contentMustache _ template _
  | templateText _ template _ => exact hnotemplate template
  | tagSpace state _ | nameSpace state _ =>
    rcases state with state | state <;> simp only [Synced, state] at h
  | valueSpace state _ _ | startTag state _ | namelessStart state _ | selfClose state _
  | startTagClose state _ | startTagBroken state _ | attributeName state _ _ _
  | directiveName state _ _ _ | strayInStartTag state _ | attributeDelimiter state _
  | openingMark state _ _ | unquotedValue state _ _ _ _ _ | closingMark state _ _
  | directiveValue state _ _ _ | valueMustache state _ _ _ | quotedValue state _ _ _
  | mustacheEnd state _ | mustacheContent state _ | endTag state _ | namelessEnd state _
  | endTagClose state _ | endTagBroken state _ | strayInEndTag state _ =>
    simp only [Synced, state] at h
  | rawText e state _ _ =>
    cases e <;> simp only [Synced, state] at h
  | space state read =>
    rcases state with state | state | state <;> simp only [Synced, state] at h
    simp only [Synced, state, Draft.build, Deal.take, hkind]
    exact h.mono ht.le
  | commentStart state read =>
    have hopen {k : NodeKind} {path : List NodeKind} (hnests : dialect.nests k = true)
        (h : d.Stands pieces dialect text pos (k :: path) deal.pieces) :
        (d.openNode (.comment []) t.span).Stands pieces dialect text pos'
          (.comment :: k :: path) deal.pieces := by
      have hopen := (h.mono ht.le).openNode hnests (.comment []) rfl rfl ht.cuts hle trivial
      rwa [show pieces.of d.tree.size (some d.current) (.comment []) t.span = [] from rfl,
        List.append_nil] at hopen
    rcases state with state | state <;> simp only [Synced, state] at h <;>
      simp only [Synced, Memory.enter, state, Draft.build, Deal.take, hkind]
    · exact .inl ⟨trivial, hopen (nests_root dialect) h⟩
    · exact .inr ⟨trivial, hopen (nests_paragraph prose) h⟩
  | commentContent state read =>
    have hcontent {path : List NodeKind} (h : d.Stands pieces dialect text pos path deal.pieces) :
        (d.build t).Stands pieces dialect text pos' path deal.pieces := by
      have h := h.mono ht.le
      simp only [Draft.build, hkind]
      refine Draft.Stands.extend ?_ ht.cuts.stop
      split
      · next old hdata =>
        exact h.setSilent (.comment (old ++ t.lexeme)) (Tree.kind_of_data hdata).symm rfl trivial
      · exact h
    have htake : deal.take t = deal := by simp only [Deal.take, hkind]
    simp only [Synced, state, htake] at h ⊢
    exact h.imp (fun h => ⟨h.1, hcontent h.2⟩) fun h => ⟨h.1, hcontent h.2⟩
  | commentEnd state read =>
    have hclose {k : NodeKind} {path : List NodeKind}
        (h : d.Stands pieces dialect text pos (.comment :: k :: path) deal.pieces) :
        (d.build t).Stands pieces dialect text pos' (k :: path) deal.pieces := by
      simp only [Draft.build, hkind]
      rw [if_pos h.kind_eq]
      exact (h.mono ht.le).close ht.cuts.stop
    have htake : deal.take t = deal := by simp only [Deal.take, hkind]
    simp only [Synced, state] at h
    rcases h with ⟨hreturn, h⟩ | ⟨hreturn, h⟩ <;>
      simp only [Synced, Memory.leave, hreturn, htake]
    · exact hclose h
    · exact hclose h
  | codeBlockStart state _ read =>
    simp only [Synced, state] at h
    simp only [Draft.build, hkind]
    exact codeBlockStart_synced h ht hkind
  | importStatement state mdx read =>
    simp only [Synced, state] at h
    simp only [Synced, state, Draft.build, Deal.take, hkind]
    exact (h.mono ht.le).leaf (nests_root dialect) (.importStatement t.lexeme) ht.cuts hle trivial
  | jsxExpression state mdx read =>
    rcases state with state | state <;> simp only [Synced, state] at h <;>
      simp only [Synced, state, Draft.build, Deal.take, hkind]
    · exact (h.mono ht.le).leaf (nests_root dialect) (.jsxStatement t.lexeme) ht.cuts hle trivial
    · exact (h.mono ht.le).leaf (nests_paragraph prose) (.jsxStatement t.lexeme) ht.cuts hle trivial
  | closedExpression state mdx read =>
    rename_i inner
    have hbraces : t.error = none ∧ ∃ inner, t.lexeme = '{' :: inner ++ ['}'] := by
      refine ⟨herror, inner, (List.append_left_inj rest).1 ?_⟩
      rw [← hreads, read]
      simp
    rcases state with state | state <;> simp only [Synced, state] at h <;>
      simp only [Synced, state, Draft.build, Deal.take, hkind]
    · exact blockExpression_stands (nests_root dialect) h ht (.inl hbraces)
    · exact blockExpression_stands (nests_paragraph prose) h ht (.inl hbraces)
  | openExpression state mdx read =>
    rename_i inner
    have hbraces : t.error.isSome = true ∧ ∃ inner, t.lexeme = '{' :: inner := by
      refine ⟨by rw [herror]; rfl, inner, ?_⟩
      rw [← read, hreads, List.append_nil]
    rcases state with state | state <;> simp only [Synced, state] at h <;>
      simp only [Synced, state, Draft.build, Deal.take, hkind]
    · exact blockExpression_stands (nests_root dialect) h ht (.inr hbraces)
    · exact blockExpression_stands (nests_paragraph prose) h ht (.inr hbraces)
  | proseText state read =>
    have hbuild {path : List NodeKind} (h : d.Stands pieces dialect text pos path deal.pieces) :
        d.build t = d.proseText t := by
      simp only [Draft.build, hkind, h.dialect_eq]
      exact if_neg prose
    rcases state with ⟨state, _⟩ | state <;> simp only [Synced, state] at h <;>
      simp only [Synced, Memory.goto, Deal.take, hkind, hbuild h]
    · exact proseText_stands prose h (.inl rfl) ht
    · exact proseText_stands prose h (.inr rfl) ht
  | paragraphEnd state read =>
    simp only [Synced, state] at h
    simp only [Synced, Memory.goto, Draft.build, Deal.take, hkind, Draft.paragraphEnd]
    rw [if_pos h.kind_eq]
    exact (h.mono ht.le).close ht.cuts.stop
  | fenceLineEnd state read =>
    simp only [Synced, state] at h
    obtain ⟨h, hlast, block, hdata, hlanguage, htext, _⟩ := h
    simp only [Synced, Memory.goto, Draft.build, Deal.take, hkind]
    exact ⟨h.mono ht.le, hlast, block, hdata, hlanguage, .inl htext⟩
  | fenceLineSpace state read =>
    simp only [Synced, state] at h
    simp only [Synced, state, Draft.build, Deal.take, hkind]
    exact ⟨h.1.mono ht.le, h.2⟩
  | codeBlockAttribute state read =>
    have hbuild : d.build t = d.codeBlockAttribute t := by simp only [Draft.build, hkind]
    simp only [Synced, state] at h
    obtain ⟨h, hlast, block, hdata, hlanguage, htext, hattrs⟩ := h
    rw [hbuild]
    -- the first word is the language; all further ones are attributes
    by_cases hlang : block.lang = none
    · exact firstWord_synced state h hlast hdata hlang htext (hattrs hlang)
        (hlanguage.symm.trans hlang) ht hkind
    · exact furtherWord_synced state h hlast hdata (Option.isSome_iff_ne_none.2 hlang) htext
        hlanguage ht hkind
  | codeBlockEnd state read =>
    simp only [Synced, state] at h
    obtain ⟨h, _, block, hdata, _, _⟩ := h
    simp only [Synced, Memory.goto, Draft.build, Deal.take, hkind]
    exact codeBlockEnd_stands h hdata ht
  | codeBlockContent state line read =>
    have hbuild : d.build t = d.codeBlockContent t := by simp only [Draft.build, hkind]
    have hstop : seek (fun t => (afterFenceLine? t).isSome) u = [] ∨
        (afterFenceLine? (seek (fun t => (afterFenceLine? t).isSome) u)).isSome = true := by
      by_cases hend : seek (fun t => (afterFenceLine? t).isSome) u = []
      · exact .inl hend
      · exact .inr (seek_stops hend)
    -- the body goes on to the next fence, and here there is none
    have hlexeme : t.lexeme ≠ [] := by
      intro hempty
      have hadv : Advances u (seek (fun t => (afterFenceLine? t).isSome) u) :=
        seek_advances hu (by simp [read])
      rw [hempty, List.nil_append] at hreads
      rw [← hreads] at hadv
      exact Nat.lt_irrefl _ hadv.shorter
    simp only [Synced, state] at h
    obtain ⟨h, hlast, block, hdata, hlanguage, hbody⟩ := h
    -- a body is read where no closing fence stands, and behind a body there stands one
    have htext : block.text = [] := by
      rcases hbody with htext | hnil | hfence
      · exact htext
      · exact absurd hnil hu
      · rw [read] at hfence
        simp at hfence
    rw [hbuild]
    exact codeBlockContent_synced state h hlast hdata hlanguage htext ht hkind hlexeme hstop

/-! ## All tokens -/

/-- In prose every step yields a token. -/
theorem Synced.rank_eq_zero (h : Synced dialect text m rest pos deal d) : m.state.rank = 0 := by
  unfold Synced at h
  split at h <;> first | exact h.elim | simp_all [ScannerState.rank]

theorem Synced.stands (h : Synced dialect text m rest pos deal d) :
    ∃ pos path, d.Stands pieces dialect text pos path deal.pieces := by
  unfold Synced at h
  split at h
  · exact ⟨_, _, h⟩
  · exact ⟨_, _, h⟩
  · rcases h with h | h
    · exact ⟨_, _, h.2⟩
    · exact ⟨_, _, h.2⟩
  · exact ⟨_, _, h.1⟩
  · exact ⟨_, _, h.1⟩
  · exact h.elim

/-- In prose the end of the text is always reached. -/
theorem Synced.not_stalls {s : Scanner}
    (h : Synced dialect text s.memory s.rest s.offset deal d) : ¬ s.Stalls := by
  intro hstalls
  rcases ((Scanner.stalls_iff s).1 hstalls).1 with hstate | ⟨hstate, _⟩ <;>
    simp only [Synced, show s.memory.state = _ from hstate] at h

theorem Synced.scan (prose : dialect ≠ .template) {s : Scanner} (hwithin : s.Within text)
    (hdialect : s.dialect = dialect) (h : Synced dialect text s.memory s.rest s.offset deal d) :
    Synced dialect text s.scan.2.memory s.scan.2.rest s.scan.2.offset (deal.take s.scan.1)
      (d.takeToken s.scan.1) := by
  by_cases hrest : s.rest = []
  · have hscan := Scanner.scan_at_end hrest
    have hoffset : s.scan.2.offset = s.offset := by
      rw [hscan]
      simp [Scanner.take, hrest, Text.before, size]
    rw [hoffset, hscan]
    exact hrest ▸ h
  · have hreads := hwithin.reads
    have hparts := s.scan_reads
    obtain ⟨m, kind, error, rest, m', hturns, hyields, hscan⟩ := Scanner.scan_before_end hrest
    have hm : m = s.memory := hturns.eq_of_rank h.rank_eq_zero
    subst hm
    rw [hdialect] at hyields
    rw [hscan] at hreads hparts ⊢
    exact (h.step prose hrest hyields hreads rfl rfl hparts).takeToken

/-- **The tree has the pieces of the tokens**, in the same order. -/
theorem pieces_of_tree (prose : dialect ≠ .template) (text : Text) :
    ∃ pos path, (Parse.draft dialect text).Stands pieces dialect text pos path
      ((tokenize dialect text).foldl Deal.take {}).pieces := by
  have hstart : Synced dialect text {} text 0 {} (Draft.start dialect text) :=
    Draft.stands_start pieces dialect text
  obtain ⟨s, _, _, hsynced⟩ := Scanner.tokensIn_foldl
    (P := fun s deal d => s.Within text ∧ s.dialect = dialect ∧
      Synced dialect text s.memory s.rest s.offset deal d)
    (f := Deal.take) (g := Draft.takeToken)
    (fun s _ _ h => ⟨h.1.scan, s.scan_dialect.trans h.2.1, h.2.2.scan prose h.1 h.2.1⟩)
    (tokenLimit text) ⟨Scanner.start_within dialect text, rfl, hstart⟩
  obtain ⟨pos, path, hstands⟩ := hsynced.stands
  obtain ⟨path, hfinish⟩ := hstands.finish
  exact ⟨pos, path, hfinish⟩

end ProseArtifacts

end HybridMarkup
