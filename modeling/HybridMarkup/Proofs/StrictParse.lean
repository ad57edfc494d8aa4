/-
A parser that insists.

The rules of the parser forgive. One that finds another node open than the one it is about does
nothing, and a span is whatever two offsets it is made of. The strict parser in this file is the same
parser without that: it refuses a token whose rule finds the wrong node open, a token that reaches
the rules of the other half of the grammar, and a span that would end before it starts. Every other
step is literally the same.

What has to hold for it not to refuse is stated once for every kind of token (`Draft.Expects`). Under
that condition, and in a draft that is laid out and aligned, the two parsers agree on the token
(`Draft.build?_eq`): nothing was forgiven. That the condition holds at every token of every document
is shown elsewhere.
-/
import HybridMarkup.Proofs.Reports

set_option autoImplicit false

namespace HybridMarkup

open Text

/-- Why the strict parser stops. -/
inductive OutOfStep where
  /-- Another node is open than the one the token is about. -/
  | misplaced (kind : TokenKind)
  /-- The token belongs to the other half of the grammar. -/
  | foreign (kind : TokenKind)
  /-- A span that ends before it starts. -/
  | inverted (start stop : Nat)
deriving DecidableEq, Repr

/-- The span between two offsets, which must be in order. -/
def Span.make? (start stop : Nat) : Except OutOfStep Span :=
  if start ≤ stop then .ok ⟨start, stop⟩ else .error (.inverted start stop)

theorem Span.make?_eq {start stop : Nat} (h : start ≤ stop) :
    Span.make? start stop = .ok ⟨start, stop⟩ :=
  if_pos h

namespace Draft

/-! ## The strict operations -/

/-- Moves the end of a node to at least `stop`. -/
def grow? (d : Draft) (id : NodeId) (stop : Nat) : Except OutOfStep Draft := do
  if (d.tree.span id).stop < stop then
    let span ← Span.make? (d.tree.span id).start stop
    return { d with tree := d.tree.setSpan id span }
  else return d

/-- Moves the end of the open node to at least `stop`. -/
def extend? (d : Draft) (stop : Nat) : Except OutOfStep Draft := d.grow? d.current stop

/-- Attaches a new node that takes no children. -/
def leaf? (d : Draft) (data : NodeData) (span : Span) : Except OutOfStep Draft :=
  { d with tree := d.tree.sprout data span d.current }.extend? span.stop

/-- Attaches a new node and opens it. -/
def openNode? (d : Draft) (data : NodeData) (span : Span) : Except OutOfStep Draft := do
  let next ← d.leaf? data span
  return { next with current := d.tree.size }

/-- Goes back to the parent of the open node, which grows to cover it. -/
def ascend? (d : Draft) : Except OutOfStep Draft :=
  match d.tree.parent d.current with
  | none => .ok d
  | some p => { d with current := p }.grow? p (d.tree.span d.current).stop

/-- Ends the open node at `stop`, or at its start if that is later, and goes back to its
parent. -/
def close? (d : Draft) (stop : Nat) : Except OutOfStep Draft := do
  let start := (d.tree.span d.current).start
  let span ← Span.make? start (max stop start)
  { d with tree := d.tree.setSpan d.current span }.ascend?

/-- Reports a fault between two offsets. -/
def report? (d : Draft) (error : ParseError) (start stop : Nat) : Except OutOfStep Draft := do
  return d.report error (← Span.make? start stop)

/-- Ends the open node at `stop` although nothing closed it. -/
def closeUnterminated? (d : Draft) (stop : Nat) : Except OutOfStep Draft := do
  let start := (d.tree.span d.current).start
  let d ←
    match d.currentData with
    | .element e =>
      let startTagEnd := e.startTagEnd.getD stop
      (d.setCurrent (.element { e with startTagEnd := some startTagEnd })).report? .tagUnclosed
        start startTagEnd
    | .mustache _ _ => d.report? .mustacheEndExpected start stop
    | data => if data.kind.isStructural then d.report? .tagUnclosed start stop else .ok d
  d.close? stop

/-- Closes what is still open at the end of the text. -/
def finishIn? : Nat → Nat → Draft → Except OutOfStep Draft
  | 0, _, d => .ok d
  | fuel + 1, stop, d =>
    if d.current = Tree.root then .ok d
    else do finishIn? fuel stop (← (d.supplyEndTagStart stop).closeUnterminated? stop)

/-- Closes what is still open at the end of the text. -/
def finish? (d : Draft) : Except OutOfStep Draft :=
  finishIn? d.tree.size (Text.size d.tree.text) d

/-! ## The strict rules -/

/-- A word of the opening line of a block. -/
def codeBlockAttribute? (d : Draft) (t : Token) : Except OutOfStep Draft :=
  match d.currentData with
  | .codeBlock block =>
    let block := { block with openerEnd := t.span.stop }
    let d :=
      if block.lang.isNone && block.attrs.isEmpty then
        d.setCurrent (.codeBlock { block with lang := some t.lexeme })
      else
        let attr := splitAttr t.lexeme
        let isDuplicate := block.attrs.any fun other => other.1 == attr.1
        let d := d.setCurrent (.codeBlock { block with attrs := block.attrs ++ [attr] })
        if isDuplicate then d.report .attributeDuplicate t.span else d
    d.extend? t.span.stop
  | _ => .error (.misplaced t.kind)

/-- An expression in braces, the inside of which is a span of its own. -/
def blockExpression? (d : Draft) (t : Token) : Except OutOfStep Draft := do
  let inner := t.lexeme.drop 1
  let isInline := d.currentKind == .paragraph
  let closed := t.error.isNone
  let span ← Span.make? (t.span.start + 1) (if closed then t.span.stop - 1 else t.span.stop)
  d.leaf? (.expressionStatement (if closed then inner.dropLast else inner) span isInline) t.span

/-- The half of the grammar that is about prose. -/
def proseToken? (d : Draft) (t : Token) : Except OutOfStep Draft :=
  match t.kind with
  | .text => do
    let d ← if d.currentKind = .paragraph then .ok d else d.openNode? .paragraph t.span
    d.leaf? (.text t.lexeme) t.span
  | .paragraphEnd =>
    if d.currentKind = .paragraph then d.close? t.span.stop else .error (.misplaced t.kind)
  | .codeBlockStart =>
    let block :=
      { lang := none
        attrs := []
        text := []
        contentSpan := Span.empty t.span.stop
        openerEnd := t.span.stop }
    d.openNode? (.codeBlock block) t.span
  | .codeBlockAttribute => d.codeBlockAttribute? t
  | .codeBlockContent =>
    match d.currentData with
    | .codeBlock block =>
      (d.setCurrent (.codeBlock { block with text := t.lexeme, contentSpan := t.span })).extend?
        t.span.stop
    | _ => .error (.misplaced t.kind)
  | .codeBlockEnd =>
    match d.currentData with
    | .codeBlock block =>
      let d :=
        if block.text.isEmpty then
          d.setCurrent (.codeBlock { block with contentSpan := Span.empty t.span.start })
        else d
      d.close? t.span.stop
    | _ => .error (.misplaced t.kind)
  | .importStatement => d.leaf? (.importStatement t.lexeme) t.span
  | .jsxExpression => d.leaf? (.jsxStatement t.lexeme) t.span
  | .blockExpression => d.blockExpression? t
  | kind => .error (.foreign kind)

/-- Goes back to the element if one of its attributes is open. -/
def leaveAttribute? (d : Draft) : Except OutOfStep Draft :=
  match d.currentData with
  | .attr _ => d.ascend?
  | .directive _ => d.ascend?
  | _ => .ok d

/-- The name of an attribute or directive. -/
def attributeName? (d : Draft) (t : Token) (data : NodeData) : Except OutOfStep Draft := do
  let d ← d.leaveAttribute?
  let duplicate := (d.tree.children d.current).findSome? fun sibling =>
    duplicateOf? (d.tree.data sibling) data
  let d ← d.openNode? data t.span
  match duplicate with
  | some error => return d.report error t.span
  | none => return d

/-- Widens the value of the open attribute. Where no attribute is open there is no value: so it is
behind a mustache that stands between tags. -/
def attributeValue? (d : Draft) (span : Span) : Except OutOfStep Draft :=
  let widened (old : Option Span) : Span := (old.map (·.cover span)).getD span
  let covered (old : Option Span) : Option Text := some (Text.slice d.tree.text (widened old))
  match d.currentData with
  | .attr a =>
    (d.setCurrent (.attr
      { a with value := covered a.valueSpan, valueSpan := some (widened a.valueSpan) })).extend?
      span.stop
  | .directive a =>
    (d.setCurrent (.directive
      { a with value := covered a.valueSpan, valueSpan := some (widened a.valueSpan) })).extend?
      span.stop
  | _ => .ok d

/-- The end of a start tag. -/
def startTagClose? (d : Draft) (t : Token) : Except OutOfStep Draft := do
  let d ← d.leaveAttribute?
  match d.currentData with
  | .element e =>
    let d := d.setCurrent (.element { e with startTagEnd := some t.span.stop })
    if isVoid e.tag then d.close? t.span.stop else d.extend? t.span.stop
  | _ => .error (.misplaced t.kind)

/-- The end of a start tag that is an end tag as well. -/
def startTagSelfClose? (d : Draft) (t : Token) : Except OutOfStep Draft := do
  let d ← d.leaveAttribute?
  match d.currentData with
  | .element e =>
    (d.setCurrent (.element
      { e with selfClose := true, startTagEnd := some t.span.stop })).close? t.span.stop
  | _ => .error (.misplaced t.kind)

/-- Closes open nodes, innermost first, until `target` is the open one. -/
def closeDownTo? (target : NodeId) (start : Nat) : Nat → Draft → Except OutOfStep Draft
  | 0, d => .ok d
  | fuel + 1, d =>
    if d.current = target then .ok d
    else do
      closeDownTo? target start fuel
        (← (d.setEndTagStart d.current start).closeUnterminated? start)

/-- The end of an end tag. -/
def endTagClose? (d : Draft) (stop : Nat) : Except OutOfStep Draft :=
  match d.endTagName with
  | none => .ok d
  | some name =>
    let d := { d with endTagName := none }
    match d.openElement? name with
    | none => d.report? .extraCloseTag d.endTagStart stop
    | some target => do
      let closed ← closeDownTo? target d.endTagStart d.tree.size d
      (closed.setEndTagStart target d.endTagStart).close? stop

/-- The braces that close a mustache. -/
def mustacheEnd? (d : Draft) (t : Token) : Except OutOfStep Draft :=
  match d.currentData with
  | .mustache _ _ => do
    let mustache := d.current
    let d ← d.close? t.span.stop
    d.attributeValue? (d.tree.span mustache)
  | _ => .error (.misplaced t.kind)

/-- The half of the grammar that is about tags. -/
def templateToken? (d : Draft) (t : Token) : Except OutOfStep Draft :=
  match t.kind with
  | .startTagOpen => do (← d.leaveAttribute?).openNode? (.element {}) t.span
  | .startTag =>
    match d.currentData with
    | .element e => (d.setCurrent (.element { e with tag := t.lexeme })).extend? t.span.stop
    | _ => .error (.misplaced t.kind)
  | .attributeName => d.attributeName? t (.attr { name := t.lexeme })
  | .directiveName => d.attributeName? t (.directive (Directive.ofRaw t.lexeme))
  | .attributeDelimiter | .attributeMark => d.extend? t.span.stop
  | .attributeValue =>
    match d.currentData with
    | .attr _ => d.attributeValue? t.span
    | .directive _ => d.attributeValue? t.span
    | _ => .error (.misplaced t.kind)
  | .startTagClose => d.startTagClose? t
  | .startTagSelfClose => d.startTagSelfClose? t
  | .endTagOpen => do
    return { ← d.leaveAttribute? with endTagStart := t.span.start, endTagName := none }
  | .endTag => .ok (d.endTagNamed t)
  | .endTagClose => d.endTagClose? t.span.stop
  | .mustacheStart => d.openNode? (.mustache [] (Span.empty t.span.stop)) t.span
  | .mustacheContent =>
    match d.currentData with
    | .mustache _ _ => (d.setCurrent (.mustache t.lexeme t.span)).extend? t.span.stop
    | _ => .error (.misplaced t.kind)
  | .mustacheEnd => d.mustacheEnd? t
  | .rawText => d.leaf? (.rawText t.lexeme) t.span
  | kind => .error (.foreign kind)

/-- The effect of a token on the tree. Comments are at home in both halves of the grammar, and so is
text. -/
def build? (d : Draft) (t : Token) : Except OutOfStep Draft :=
  match t.kind with
  | .whitespace | .unknown | .eos => .ok d
  | .commentStart => d.openNode? (.comment []) t.span
  | .commentContent =>
    match d.currentData with
    | .comment text => (d.setCurrent (.comment (text ++ t.lexeme))).extend? t.span.stop
    | _ => .error (.misplaced t.kind)
  | .commentEnd =>
    if d.currentKind = .comment then d.close? t.span.stop else .error (.misplaced t.kind)
  | .text =>
    if d.tree.dialect = .template then
      if Text.isAllBlank t.lexeme then .ok d else d.leaf? (.text t.lexeme) t.span
    else d.proseToken? t
  | .paragraphEnd | .codeBlockStart | .codeBlockAttribute | .codeBlockContent | .codeBlockEnd
  | .importStatement | .jsxExpression | .blockExpression => d.proseToken? t
  | .startTagOpen | .startTag | .startTagClose | .startTagSelfClose | .endTagOpen | .endTag
  | .endTagClose | .attributeName | .directiveName | .attributeDelimiter | .attributeMark
  | .attributeValue | .mustacheStart | .mustacheContent | .mustacheEnd | .rawText =>
    d.templateToken? t

/-- Takes in a token: its effect on the tree, then its fault. -/
def takeToken? (d : Draft) (t : Token) : Except OutOfStep Draft := do
  let d ← d.build? t
  match t.error with
  | some error => return d.reportLexical error t.span
  | none => return d

end Draft

/-- The draft of a document, or why the strict parser stops. -/
def Parse.draft? (dialect : Dialect) (text : Text) : Except OutOfStep Draft := do
  (← (tokenize dialect text).foldlM Draft.takeToken? (Draft.start dialect text)).finish?

/-! ## What the rules expect -/

namespace Draft

/-- An element is open, or an attribute or a directive right under one. -/
def InStartTag (d : Draft) : Prop :=
  d.currentKind = .element ∨
    (d.currentKind = .attr ∨ d.currentKind = .directive) ∧
      ∃ p : Nat, d.tree.parent d.current = some p ∧ d.tree.kind p = .element

/-- **The open node is the one that the rule of the token is about.** -/
def Expects (d : Draft) : TokenKind → Prop
  | .commentContent | .commentEnd => d.currentKind = .comment
  | .paragraphEnd => d.currentKind = .paragraph
  | .codeBlockAttribute | .codeBlockContent | .codeBlockEnd => d.currentKind = .codeBlock
  | .startTagOpen | .endTagOpen | .endTagClose =>
    d.currentKind = .root ∨ d.currentKind = .element
  -- the element has just been opened, and nothing is known of it yet
  | .startTag => d.currentData = .element {} ∧ d.current + 1 = d.tree.size
  | .attributeName | .directiveName | .startTagClose | .startTagSelfClose => d.InStartTag
  | .attributeDelimiter | .attributeMark | .attributeValue =>
    d.currentKind = .attr ∨ d.currentKind = .directive
  | .mustacheContent | .mustacheEnd => d.currentKind = .mustache
  | .rawText =>
    ∃ e, d.currentData = .element e ∧
      (Text.equalIgnoringCase e.tag "script".toList = true ∨
        Text.equalIgnoringCase e.tag "style".toList = true)
  | _ => True

/-! ## The strict operations do what the others do -/

end Draft

/-- A node that is given the span it has stays as it is. -/
theorem Tree.setSpan_self (t : Tree) (i : Nat) : t.setSpan i (t.span i) = t := by
  have hnodes : t.nodes.modify i (fun n => { n with span := t.span i }) = t.nodes := by
    refine Array.ext (by simp) fun k hk _ => ?_
    simp only [Array.getElem_modify]
    split
    · next heq =>
      subst heq
      simp [span, node, show i < t.nodes.size by simpa using hk]
    · rfl
  exact congrArg (fun nodes => ({ t with nodes } : Tree)) hnodes

namespace Draft

variable {text : Text} {pos pos' : Nat} {d : Draft} {t : Token}

/-- No span ends before it starts. -/
def Ordered (d : Draft) : Prop := ∀ i : Nat, (d.tree.span i).start ≤ (d.tree.span i).stop

theorem Aligned.ordered (h : d.Aligned text pos) : d.Ordered := fun i => (h.spans i).1.ordered

theorem Ordered.setData (h : d.Ordered) (i : Nat) (data : NodeData) : (d.setData i data).Ordered := by
  intro j
  rw [show (d.setData i data).tree.span j = d.tree.span j from Tree.span_setData ..]
  exact h j

theorem Ordered.setCurrent (h : d.Ordered) (data : NodeData) : (d.setCurrent data).Ordered :=
  h.setData d.current data

theorem Ordered.report (h : d.Ordered) (error : ParseError) (span : Span) :
    (d.report error span).Ordered :=
  h

theorem Ordered.setSpan (h : d.Ordered) (i : Nat) {span : Span} (hspan : span.start ≤ span.stop) :
    ({ d with tree := d.tree.setSpan i span } : Draft).Ordered := by
  intro j
  dsimp only
  rw [Tree.span_setSpan]
  split
  · exact hspan
  · exact h j

theorem Ordered.sprout (h : d.Ordered) (hcurrent : d.current < d.tree.size) (data : NodeData)
    {span : Span} (hspan : span.start ≤ span.stop) :
    ({ d with tree := d.tree.sprout data span d.current } : Draft).Ordered := by
  intro j
  dsimp only
  rw [Tree.span_sprout hcurrent]
  split
  · exact hspan
  · exact h j

theorem grow?_eq (h : d.Ordered) (i stop : Nat) : d.grow? i stop = .ok (d.grow i stop) := by
  unfold grow? grow Span.growTo
  split
  · next hlt =>
    have hle := Nat.le_of_lt hlt
    rw [Span.make?_eq (Nat.le_trans (h i) hle), Nat.max_eq_right hle]
    rfl
  · next hge =>
    rw [Nat.max_eq_left (Nat.le_of_not_lt hge), Tree.setSpan_self]
    rfl

theorem extend?_eq (h : d.Ordered) (stop : Nat) : d.extend? stop = .ok (d.extend stop) :=
  grow?_eq h d.current stop

theorem leaf?_eq (h : d.Ordered) (hcurrent : d.current < d.tree.size) (data : NodeData)
    {span : Span} (hspan : span.start ≤ span.stop) :
    d.leaf? data span = .ok (d.leaf data span) :=
  extend?_eq (h.sprout hcurrent data hspan) span.stop

theorem openNode?_eq (h : d.Ordered) (hcurrent : d.current < d.tree.size) (data : NodeData)
    {span : Span} (hspan : span.start ≤ span.stop) :
    d.openNode? data span = .ok (d.openNode data span) := by
  unfold openNode?
  rw [leaf?_eq h hcurrent data hspan]
  rfl

theorem ascend?_eq (h : d.Ordered) : d.ascend? = .ok d.ascend := by
  unfold ascend? ascend
  cases d.tree.parent d.current with
  | none => rfl
  | some p =>
    have hmove : ({ d with current := p } : Draft).Ordered := h
    exact grow?_eq hmove p _

theorem close?_eq (h : d.Ordered) (stop : Nat) : d.close? stop = .ok (d.close stop) := by
  have hle : (d.tree.span d.current).start ≤ max stop (d.tree.span d.current).start :=
    Nat.le_max_right _ _
  unfold close?
  dsimp only
  rw [Span.make?_eq hle]
  exact ascend?_eq (h.setSpan d.current hle)

theorem report?_eq (error : ParseError) {start stop : Nat} (h : start ≤ stop) :
    d.report? error start stop = .ok (d.report error ⟨start, stop⟩) := by
  unfold report?
  rw [Span.make?_eq h]
  rfl

/-- **Whatever nothing closed has begun** where it is closed, and where its start tag ends. -/
theorem closeUnterminated?_eq (h : d.Aligned text pos) :
    d.closeUnterminated? pos = .ok (d.closeUnterminated pos) := by
  have hstart := (h.spans d.current).2
  have hplain (error : ParseError) : (do
      let d ← d.report? error (d.tree.span d.current).start pos
      d.close? pos) = .ok ((d.report error ⟨(d.tree.span d.current).start, pos⟩).close pos) := by
    rw [report?_eq error hstart]
    exact close?_eq (h.ordered.report error _) pos
  unfold closeUnterminated? closeUnterminated
  cases hdata : d.currentData with
  | element e =>
    have htag : (d.tree.span d.current).start ≤ e.startTagEnd.getD pos := by
      cases hend : e.startTagEnd with
      | none => exact hstart
      | some n =>
        refine (h.startTags d.current n ?_).ordered
        rw [show d.tree.data d.current = .element e from hdata]
        exact hend
    dsimp only
    rw [report?_eq _ htag]
    exact close?_eq ((h.ordered.setCurrent _).report _ _) pos
  | mustache _ _ | comment _ | codeBlock _ => exact hplain _
  | _ => exact close?_eq h.ordered pos

theorem closeDownTo?_eq (target fuel : Nat) (hpos : isBoundary pos text = true) :
    ∀ {d : Draft}, d.Aligned text pos →
      closeDownTo? target pos fuel d = .ok (closeDownTo target pos fuel d) := by
  induction fuel with
  | zero => exact fun _ => rfl
  | succ fuel ih =>
    intro d h
    have hset := h.setEndTagStart d.current pos
    unfold closeDownTo? closeDownTo
    split
    · rfl
    · rw [closeUnterminated?_eq hset]
      exact ih (hset.closeUnterminated hpos)

theorem finishIn?_eq (fuel : Nat) (hpos : isBoundary pos text = true) :
    ∀ {d : Draft}, d.Aligned text pos → finishIn? fuel pos d = .ok (finishIn fuel pos d) := by
  induction fuel with
  | zero => exact fun _ => rfl
  | succ fuel ih =>
    intro d h
    have hset := h.supplyEndTagStart pos
    unfold finishIn? finishIn
    split
    · rfl
    · rw [closeUnterminated?_eq hset]
      exact ih (hset.closeUnterminated hpos)

theorem finish?_eq (h : d.Aligned text pos) (hle : pos ≤ size text) (htext : d.tree.text = text) :
    d.finish? = .ok d.finish := by
  unfold finish? finish
  rw [htext]
  exact finishIn?_eq _ (isBoundary_size text) (h.mono hle)

/-! ## The strict rules do what the others do -/

theorem exists_comment (h : d.currentKind = .comment) : ∃ s, d.currentData = .comment s := by
  have h : d.currentData.kind = .comment := h
  cases hdata : d.currentData <;> simp_all [NodeData.kind]

theorem exists_codeBlock (h : d.currentKind = .codeBlock) :
    ∃ block, d.currentData = .codeBlock block := by
  have h : d.currentData.kind = .codeBlock := h
  cases hdata : d.currentData <;> simp_all [NodeData.kind]

theorem exists_element (h : d.currentKind = .element) : ∃ e, d.currentData = .element e := by
  have h : d.currentData.kind = .element := h
  cases hdata : d.currentData <;> simp_all [NodeData.kind]

theorem exists_mustache (h : d.currentKind = .mustache) :
    ∃ code inner, d.currentData = .mustache code inner := by
  have h : d.currentData.kind = .mustache := h
  cases hdata : d.currentData <;> simp_all [NodeData.kind]

section Rules

theorem codeBlockAttribute?_eq (h : d.Ordered) (hkind : d.currentKind = .codeBlock) :
    d.codeBlockAttribute? t = .ok (d.codeBlockAttribute t) := by
  obtain ⟨block, hdata⟩ := exists_codeBlock hkind
  simp only [codeBlockAttribute?, codeBlockAttribute, hdata]
  refine extend?_eq ?_ _
  split
  · exact h.setCurrent _
  · split
    · exact (h.setCurrent _).report _ _
    · exact h.setCurrent _

/-- An expression has a brace at its start, and unless it is faulty one at its end. -/
theorem blockExpression?_eq (h : d.Ordered) (hcurrent : d.current < d.tree.size)
    (ht : t.span.start ≤ t.span.stop)
    (hinner : t.interior.start ≤ t.interior.stop) :
    d.blockExpression? t = .ok (d.blockExpression t) := by
  unfold Token.interior at hinner
  unfold blockExpression? blockExpression
  dsimp only at hinner ⊢
  rw [Span.make?_eq hinner]
  refine (leaf?_eq h hcurrent _ ht).trans ?_
  split <;> rfl

theorem leaveAttribute?_eq (h : d.Ordered) : d.leaveAttribute? = .ok d.leaveAttribute := by
  unfold leaveAttribute? leaveAttribute
  cases d.currentData with
  | attr _ | directive _ => exact ascend?_eq h
  | _ => rfl

/-- Behind the attributes there is the element whose start tag is read. -/
theorem InStartTag.exists_element (h : d.InStartTag) :
    ∃ e, d.leaveAttribute.currentData = .element e := by
  rcases h with helement | ⟨hattribute, p, hp, hkind⟩
  · obtain ⟨e, hdata⟩ := Draft.exists_element helement
    refine ⟨e, ?_⟩
    unfold leaveAttribute
    rw [hdata]
    exact hdata
  · rw [TemplateArtifact.leaveAttribute_of_attribute hattribute]
    have hmove : ({ d with current := p } : Draft).currentKind = .element := hkind
    obtain ⟨e, hdata⟩ := Draft.exists_element hmove
    refine ⟨e, ?_⟩
    unfold ascend
    rw [hp]
    exact (Tree.data_setSpan ..).trans hdata

theorem attributeName?_eq (h : d.Laid text pos) (ht : t.span.start ≤ t.span.stop)
    (data : NodeData) : d.attributeName? t data = .ok (d.attributeName t data) := by
  have hleave := h.leaveAttribute
  unfold attributeName? attributeName
  rw [leaveAttribute?_eq h.ordered]
  dsimp only [bind, Except.bind]
  rw [openNode?_eq hleave.ordered hleave.shape.edge_lt data ht]
  dsimp only
  generalize List.findSome? _ _ = duplicate
  cases duplicate <;> rfl

theorem attributeValue?_eq (h : d.Ordered) (span : Span) :
    d.attributeValue? span = .ok (d.attributeValue span) := by
  unfold attributeValue? attributeValue
  cases d.currentData with
  | attr _ | directive _ => exact extend?_eq (h.setCurrent _) _
  | _ => rfl

theorem startTagClose?_eq (h : d.Laid text pos) (htag : d.InStartTag) :
    d.startTagClose? t = .ok (d.startTagClose t) := by
  obtain ⟨e, hdata⟩ := htag.exists_element
  have hset := Ordered.setCurrent (show d.leaveAttribute.Ordered from h.leaveAttribute.ordered)
    (.element { e with startTagEnd := some t.span.stop })
  unfold startTagClose? startTagClose
  rw [leaveAttribute?_eq h.ordered]
  simp only [bind, Except.bind, hdata]
  split
  · exact close?_eq hset _
  · exact extend?_eq hset _

theorem startTagSelfClose?_eq (h : d.Laid text pos) (htag : d.InStartTag) :
    d.startTagSelfClose? t = .ok (d.startTagSelfClose t) := by
  obtain ⟨e, hdata⟩ := htag.exists_element
  unfold startTagSelfClose? startTagSelfClose
  rw [leaveAttribute?_eq h.ordered]
  simp only [bind, Except.bind, hdata]
  exact close?_eq (Ordered.setCurrent h.leaveAttribute.ordered _) _

/-- **An end tag** is closed by the strict parser as well if all that is open began before it. -/
theorem endTagClose?_eq {stop : Nat} (h : d.Aligned text d.endTagStart)
    (hle : d.endTagStart ≤ stop) : d.endTagClose? stop = .ok (d.endTagClose stop) := by
  unfold endTagClose? endTagClose
  cases d.endTagName with
  | none => rfl
  | some name =>
    have hnext : ({ d with endTagName := none } : Draft).Aligned text d.endTagStart :=
      ⟨h.spans, h.startTags, h.endTag, h.reported⟩
    dsimp only
    cases ({ d with endTagName := none } : Draft).openElement? name with
    | none => exact report?_eq _ hle
    | some target =>
      have hclosed := hnext.closeDownTo target d.tree.size h.endTag
      dsimp only
      rw [closeDownTo?_eq target d.tree.size h.endTag hnext]
      exact close?_eq (hclosed.setEndTagStart target d.endTagStart).ordered stop

theorem mustacheEnd?_eq (h : d.Aligned text pos) (ht : isBoundary t.span.stop text = true)
    (hkind : d.currentKind = .mustache) : d.mustacheEnd? t = .ok (d.mustacheEnd t) := by
  obtain ⟨code, inner, hdata⟩ := exists_mustache hkind
  simp only [mustacheEnd?, mustacheEnd, hdata]
  rw [close?_eq h.ordered]
  exact attributeValue?_eq (h.close ht).ordered _

end Rules

/-- **Nothing is forgiven** at a token that finds the node open that its rule is about. -/
theorem build?_eq (h : d.Aligned text pos) (hl : d.Laid text pos) (ht : t.Reads text pos pos')
    (hexpects : d.Expects t.kind)
    (hinner : t.kind = .blockExpression → t.interior.start ≤ t.interior.stop)
    (hclose : t.kind = .endTagClose → d.endTagStart ≤ pos ∧ d.Aligned text d.endTagStart) :
    d.build? t = .ok (d.build t) := by
  have hcurrent := hl.shape.edge_lt
  have hspan := ht.cuts.ordered
  have ho := h.ordered
  unfold build? build proseToken? templateToken?
  cases hkind : t.kind with
  | whitespace | unknown | eos | endTag => rfl
  | commentStart | codeBlockStart | mustacheStart => exact openNode?_eq ho hcurrent _ hspan
  | commentContent =>
    rw [hkind] at hexpects
    obtain ⟨s, hdata⟩ := exists_comment hexpects
    simp only [hdata]
    exact extend?_eq (ho.setCurrent _) _
  | commentEnd =>
    rw [hkind] at hexpects
    have hcomment : d.currentKind = .comment := hexpects
    simp only [hcomment, if_true]
    exact close?_eq ho _
  | text =>
    by_cases htemplate : d.tree.dialect = .template
    · simp only [htemplate, if_true, templateText]
      split
      · rfl
      · exact leaf?_eq ho hcurrent _ hspan
    · simp only [htemplate, if_false, proseText]
      split
      · exact leaf?_eq ho hcurrent _ hspan
      · have hopen := hl.openNode .paragraph ht (NodeData.fits_of_nil rfl _)
        rw [openNode?_eq ho hcurrent _ hspan]
        exact leaf?_eq hopen.ordered hopen.shape.edge_lt _ hspan
  | paragraphEnd =>
    have hparagraph : d.currentKind = .paragraph := by rwa [hkind] at hexpects
    simp only [hparagraph, if_true, paragraphEnd]
    exact close?_eq ho _
  | codeBlockAttribute =>
    rw [hkind] at hexpects
    exact codeBlockAttribute?_eq ho hexpects
  | codeBlockContent =>
    rw [hkind] at hexpects
    obtain ⟨block, hdata⟩ := exists_codeBlock hexpects
    simp only [hdata, codeBlockContent]
    exact extend?_eq (ho.setCurrent _) _
  | codeBlockEnd =>
    rw [hkind] at hexpects
    obtain ⟨block, hdata⟩ := exists_codeBlock hexpects
    simp only [hdata, codeBlockEnd]
    refine close?_eq ?_ _
    split
    · exact ho.setCurrent _
    · exact ho
  | importStatement | jsxExpression | rawText => exact leaf?_eq ho hcurrent _ hspan
  | blockExpression => exact blockExpression?_eq ho hcurrent hspan (hinner hkind)
  | startTagOpen =>
    dsimp only
    rw [leaveAttribute?_eq ho]
    exact openNode?_eq hl.leaveAttribute.ordered hl.leaveAttribute.shape.edge_lt _ hspan
  | startTag =>
    rw [hkind] at hexpects
    simp only [hexpects.1, startTag]
    exact extend?_eq (ho.setCurrent _) _
  | startTagClose =>
    rw [hkind] at hexpects
    exact startTagClose?_eq hl hexpects
  | startTagSelfClose =>
    rw [hkind] at hexpects
    exact startTagSelfClose?_eq hl hexpects
  | endTagOpen =>
    dsimp only
    rw [leaveAttribute?_eq ho]
    rfl
  | endTagClose =>
    obtain ⟨hle, hbefore⟩ := hclose hkind
    exact endTagClose?_eq hbefore (Nat.le_trans hle (ht.stop ▸ ht.le))
  | attributeName | directiveName => exact attributeName?_eq hl hspan _
  | attributeDelimiter | attributeMark => exact extend?_eq ho _
  | attributeValue =>
    rw [hkind] at hexpects
    have hvalue := attributeValue?_eq ho t.span
    dsimp only
    split
    · exact hvalue
    · exact hvalue
    · next hattr hdirective =>
      have hexpects : d.currentData.kind = .attr ∨ d.currentData.kind = .directive := hexpects
      cases hdata : d.currentData <;> simp_all [NodeData.kind]
  | mustacheContent =>
    rw [hkind] at hexpects
    obtain ⟨code, inner, hdata⟩ := exists_mustache hexpects
    simp only [hdata, mustacheContent]
    exact extend?_eq (ho.setCurrent _) _
  | mustacheEnd =>
    rw [hkind] at hexpects
    exact mustacheEnd?_eq h ht.cuts.stop hexpects

theorem takeToken?_eq (h : d.build? t = .ok (d.build t)) :
    d.takeToken? t = .ok (d.takeToken t) := by
  unfold takeToken? takeToken
  rw [h]
  cases t.error <;> rfl

/-- The end of a comment where no comment is open is passed over by the one and refused by the
other. -/
example : (Draft.start .mdx []).takeToken? ⟨.commentEnd, ⟨0, 0⟩, [], none⟩
    = .error (.misplaced .commentEnd) := rfl

end Draft

end HybridMarkup
