/-
The footprint of a token.

A token attaches nodes of certain kinds only (`TokenKind.attaches`), and takes note of something only
in nodes of certain kinds (`TokenKind.notes`). All other nodes keep what they stand for
(`Draft.Touches`). What is noted in an attribute or a directive is its value, so these two keep their
names whatever is read (`NodeData.attribute?`).

There is one lemma for each way of working on a draft, and one for each rule that is put together
from these. Main statements: what a token touches (`Draft.touches_takeToken`), and what the end of
the text does, which attaches nothing and takes note of something in elements only
(`Draft.touches_finish`).
-/
import HybridMarkup.Proofs.Growth

set_option autoImplicit false

namespace HybridMarkup

/-- The attribute or directive without its value. -/
def NodeData.attribute? : NodeData → Option NodeData
  | .attr a => some (.attr { name := a.name })
  | .directive a => some (.directive { a with value := none, valueSpan := none })
  | _ => none

/-- Only attributes and directives are such. -/
theorem NodeData.attribute?_eq_none {data : NodeData}
    (h : ¬ (data.kind = .attr ∨ data.kind = .directive)) : data.attribute? = none := by
  cases data <;> simp_all [attribute?, kind]

namespace TokenKind

/-- The kinds of the nodes that the token may attach. -/
def attaches : TokenKind → List NodeKind
  | text => [.text, .paragraph]
  | commentStart => [.comment]
  | codeBlockStart => [.codeBlock]
  | importStatement => [.importStatement]
  | jsxExpression => [.jsxStatement]
  | blockExpression => [.expressionStatement]
  | startTagOpen => [.element]
  | attributeName => [.attr]
  | directiveName => [.directive]
  | mustacheStart => [.mustache]
  | rawText => [.rawText]
  | _ => []

/-- The kinds of the nodes in which the token may take note of something. -/
def notes : TokenKind → List NodeKind
  | commentContent => [.comment]
  | codeBlockAttribute | codeBlockContent | codeBlockEnd => [.codeBlock]
  | startTag | startTagClose | startTagSelfClose | endTagClose => [.element]
  | attributeValue | mustacheEnd => [.attr, .directive]
  | mustacheContent => [.mustache]
  | _ => []

end TokenKind

namespace Draft

variable {d d' d'' : Draft} {attached noted : List NodeKind} {data : NodeData} {span : Span}
  {t : Token}

/-- Nodes of the kinds `attached` are attached, and something is noted in nodes of the kinds
`noted`. The others keep what they stand for, and attributes keep their names. -/
structure Touches (attached noted : List NodeKind) (d d' : Draft) : Prop
    extends Tree.Grows (fun _ k _ => k ∈ attached) d.tree d'.tree where
  data : ∀ i, i < d.tree.size → d.tree.kind i ∉ noted → d'.tree.data i = d.tree.data i
  names : ∀ i, i < d.tree.size → (d'.tree.data i).attribute? = (d.tree.data i).attribute?

theorem touches_of_tree (htree : d'.tree = d.tree) : d.Touches attached noted d' := by
  refine ⟨?_, fun i _ _ => ?_, fun i _ => ?_⟩
  · rw [htree]
    exact .refl _
  · rw [htree]
  · rw [htree]

theorem Touches.refl (d : Draft) : d.Touches attached noted d := touches_of_tree rfl

theorem Touches.size_eq (h : d.Touches [] noted d') : d'.tree.size = d.tree.size := by
  refine Nat.le_antisymm (Nat.le_of_not_lt fun hlt => ?_) h.size_le
  obtain ⟨_, _, hnone⟩ := h.fresh d.tree.size (Nat.le_refl _) hlt
  simp at hnone

theorem Touches.trans (h : d.Touches attached noted d') (h' : d'.Touches attached noted d'') :
    d.Touches attached noted d'' := by
  refine ⟨h.toGrows.trans h'.toGrows, fun i hi hkind => ?_, fun i hi => ?_⟩
  · refine (h'.data i (Nat.lt_of_lt_of_le hi h.size_le) ?_).trans (h.data i hi hkind)
    rw [h.kinds i hi]
    exact hkind
  · exact (h'.names i (Nat.lt_of_lt_of_le hi h.size_le)).trans (h.names i hi)

/-! ### Ways of working on a draft -/

theorem touches_setSpan {i : Nat} (hstart : span.start = (d.tree.span i).start) :
    d.Touches attached noted { d with tree := d.tree.setSpan i span } :=
  ⟨Tree.grows_setSpan hstart, fun _ _ _ => Tree.data_setSpan ..,
    fun _ _ => congrArg NodeData.attribute? (Tree.data_setSpan ..)⟩

theorem touches_extend (d : Draft) (stop : Nat) : d.Touches attached noted (d.extend stop) :=
  touches_setSpan rfl

/-- Something is noted in a node, but no other name of an attribute. -/
theorem touches_setData {i : Nat} (hkind : data.kind = d.tree.kind i) (hnoted : data.kind ∈ noted)
    (hname : data.attribute? = (d.tree.data i).attribute?) :
    d.Touches attached noted (d.setData i data) := by
  have hset (j : Nat) : (d.setData i data).tree.data j
      = if i = j ∧ j < d.tree.size then data else d.tree.data j := Tree.data_setData ..
  refine ⟨Tree.grows_setData hkind, fun j _ hj => ?_, fun j _ => ?_⟩
  · rw [hset, if_neg]
    rintro ⟨rfl, _⟩
    exact hj (hkind ▸ hnoted)
  · rw [hset]
    split
    · next heq => rw [hname, heq.1]
    · rfl

theorem touches_setCurrent (hkind : data.kind = d.currentData.kind) (hnoted : data.kind ∈ noted)
    (hname : data.attribute? = d.currentData.attribute?) :
    d.Touches attached noted (d.setCurrent data) :=
  touches_setData hkind hnoted hname

theorem touches_leaf (hcurrent : d.current < d.tree.size) (hattached : data.kind ∈ attached) :
    d.Touches attached noted (d.leaf data span) := by
  have hsprout : d.Touches attached noted { d with tree := d.tree.sprout data span d.current } := by
    have hold (i : Nat) (hi : i < d.tree.size) :
        (d.tree.sprout data span d.current).data i = d.tree.data i := by
      rw [Tree.data_sprout hcurrent, if_neg (Nat.ne_of_lt hi)]
    exact ⟨Tree.grows_sprout hcurrent hattached, fun i hi _ => hold i hi,
      fun i hi => congrArg NodeData.attribute? (hold i hi)⟩
  exact hsprout.trans (touches_extend _ _)

theorem touches_openNode (hcurrent : d.current < d.tree.size) (hattached : data.kind ∈ attached) :
    d.Touches attached noted (d.openNode data span) :=
  (touches_leaf hcurrent hattached).trans (touches_of_tree rfl)

theorem touches_ascend (d : Draft) : d.Touches attached noted d.ascend := by
  unfold Draft.ascend
  split
  · exact .refl d
  · next p _ =>
    have hup : d.Touches attached noted { d with current := p } := touches_of_tree rfl
    exact hup.trans (touches_setSpan rfl)

theorem touches_close (d : Draft) (stop : Nat) : d.Touches attached noted (d.close stop) := by
  have hspan : d.Touches attached noted { d with
      tree := d.tree.setSpan d.current
        ⟨(d.tree.span d.current).start, max stop (d.tree.span d.current).start⟩ } :=
    touches_setSpan rfl
  exact hspan.trans (touches_ascend _)

/-! ### Rules -/

theorem touches_leaveAttribute (d : Draft) : d.Touches attached noted d.leaveAttribute := by
  unfold Draft.leaveAttribute
  split
  · exact touches_ascend d
  · exact touches_ascend d
  · exact .refl d

/-- A value is noted, and the name stays. -/
theorem touches_attributeValue (hattr : .attr ∈ noted) (hdirective : .directive ∈ noted)
    (d : Draft) (span : Span) : d.Touches attached noted (d.attributeValue span) := by
  unfold Draft.attributeValue
  dsimp only
  split
  · next a hdata =>
    refine (touches_setCurrent ?_ hattr ?_).trans (touches_extend _ _)
    · rw [hdata]
      rfl
    · rw [hdata]
      rfl
  · next a hdata =>
    refine (touches_setCurrent ?_ hdirective ?_).trans (touches_extend _ _)
    · rw [hdata]
      rfl
    · rw [hdata]
      rfl
  · exact .refl d

theorem touches_attributeName (hshape : d.tree.Shape d.current) (hattached : data.kind ∈ attached) :
    d.Touches attached noted (d.attributeName t data) := by
  have hopen : d.Touches attached noted (d.leaveAttribute.openNode data t.span) :=
    (touches_leaveAttribute d).trans (touches_openNode (leaveAttribute_current_lt hshape) hattached)
  unfold Draft.attributeName
  dsimp only
  split
  · exact hopen.trans (touches_of_tree rfl)
  · exact hopen

theorem touches_proseText (hshape : d.tree.Shape d.current) (htext : .text ∈ attached)
    (hparagraph : .paragraph ∈ attached) : d.Touches attached noted (d.proseText t) := by
  unfold Draft.proseText
  dsimp only
  split
  · exact touches_leaf hshape.edge_lt htext
  · exact (touches_openNode hshape.edge_lt hparagraph).trans
      (touches_leaf (shape_openNode hshape _ _).edge_lt htext)

theorem touches_codeBlockAttribute (hblock : .codeBlock ∈ noted) (d : Draft) (t : Token) :
    d.Touches attached noted (d.codeBlockAttribute t) := by
  unfold Draft.codeBlockAttribute
  split
  · next block hdata =>
    have hset (block' : CodeBlock) : d.Touches attached noted (d.setCurrent (.codeBlock block')) :=
      touches_setCurrent (by rw [hdata]; rfl) hblock (by rw [hdata]; rfl)
    refine Touches.trans ?_ (touches_extend _ _)
    dsimp only
    split
    · exact hset _
    · split
      · exact (hset _).trans (touches_of_tree rfl)
      · exact hset _
  · exact .refl d

theorem touches_codeBlockContent (hblock : .codeBlock ∈ noted) (d : Draft) (t : Token) :
    d.Touches attached noted (d.codeBlockContent t) := by
  unfold Draft.codeBlockContent
  refine Touches.trans ?_ (touches_extend _ _)
  split
  · next hdata => exact touches_setCurrent (by rw [hdata]; rfl) hblock (by rw [hdata]; rfl)
  · exact .refl d

theorem touches_codeBlockEnd (hblock : .codeBlock ∈ noted) (d : Draft) (t : Token) :
    d.Touches attached noted (d.codeBlockEnd t) := by
  unfold Draft.codeBlockEnd
  split
  · next block hdata =>
    refine Touches.trans ?_ (touches_close _ _)
    split
    · exact touches_setCurrent (by rw [hdata]; rfl) hblock (by rw [hdata]; rfl)
    · exact .refl d
  · exact .refl d

theorem touches_blockExpression (hcurrent : d.current < d.tree.size)
    (hattached : .expressionStatement ∈ attached) :
    d.Touches attached noted (d.blockExpression t) := by
  unfold Draft.blockExpression
  dsimp only
  split
  · exact touches_leaf hcurrent hattached
  · exact touches_leaf hcurrent hattached

theorem touches_mustacheContent (hmustache : .mustache ∈ noted) (d : Draft) (t : Token) :
    d.Touches attached noted (d.mustacheContent t) := by
  unfold Draft.mustacheContent
  refine Touches.trans ?_ (touches_extend _ _)
  split
  · next hdata => exact touches_setCurrent (by rw [hdata]; rfl) hmustache (by rw [hdata]; rfl)
  · exact .refl d

theorem touches_mustacheEnd (hattr : .attr ∈ noted) (hdirective : .directive ∈ noted) (d : Draft)
    (t : Token) : d.Touches attached noted (d.mustacheEnd t) := by
  unfold Draft.mustacheEnd
  split
  · exact (touches_close d _).trans (touches_attributeValue hattr hdirective _ _)
  · exact .refl d

/-! ### Elements -/

section Elements

variable (helement : .element ∈ noted)
include helement

/-- Something is noted in an element. -/
theorem touches_setElement {i : Nat} {e : Element} (e' : Element)
    (hdata : d.tree.data i = .element e) :
    d.Touches attached noted (d.setData i (.element e')) := by
  refine touches_setData ?_ helement ?_
  · rw [Tree.kind_of_data hdata]
    rfl
  · rw [hdata]
    rfl

theorem touches_startTag (d : Draft) (t : Token) :
    d.Touches attached noted (d.startTag t) := by
  unfold Draft.startTag
  refine Touches.trans ?_ (touches_extend _ _)
  split
  · next hdata => exact touches_setElement helement _ hdata
  · exact .refl d

theorem touches_startTagClose (d : Draft) (t : Token) :
    d.Touches attached noted (d.startTagClose t) := by
  unfold Draft.startTagClose
  refine (touches_leaveAttribute d).trans ?_
  dsimp only
  split
  · next e hdata =>
    split
    · exact (touches_setElement helement _ hdata).trans (touches_close _ _)
    · exact (touches_setElement helement _ hdata).trans (touches_extend _ _)
  · exact touches_extend _ _

theorem touches_startTagSelfClose (d : Draft) (t : Token) :
    d.Touches attached noted (d.startTagSelfClose t) := by
  unfold Draft.startTagSelfClose
  refine (touches_leaveAttribute d).trans ?_
  dsimp only
  split
  · next hdata => exact (touches_setElement helement _ hdata).trans (touches_close _ _)
  · exact .refl _

theorem touches_setEndTagStart (d : Draft) (i start : Nat) :
    d.Touches attached noted (d.setEndTagStart i start) := by
  unfold Draft.setEndTagStart
  split
  · next hdata => exact touches_setElement helement _ hdata
  · exact .refl d

theorem touches_supplyEndTagStart (d : Draft) (stop : Nat) :
    d.Touches attached noted (d.supplyEndTagStart stop) := by
  unfold Draft.supplyEndTagStart
  split
  · next hdata => exact touches_setElement helement _ hdata
  · exact .refl d

theorem touches_closeUnterminated (d : Draft) (stop : Nat) :
    d.Touches attached noted (d.closeUnterminated stop) := by
  obtain ⟨d', hclose, _, ⟨e, hdata, htree⟩ | ⟨_, htree⟩⟩ := d.exists_closeUnterminated stop
  · rw [hclose]
    exact ((touches_setElement helement _ hdata).trans (touches_of_tree htree)).trans
      (touches_close _ _)
  · rw [hclose]
    exact (touches_of_tree htree).trans (touches_close _ _)

theorem touches_closeDownTo (target start fuel : Nat) :
    ∀ d : Draft, d.Touches attached noted (closeDownTo target start fuel d) := by
  induction fuel with
  | zero => exact .refl
  | succ fuel ih =>
    intro d
    unfold closeDownTo
    split
    · exact .refl d
    · exact ((touches_setEndTagStart helement d _ _).trans
        (touches_closeUnterminated helement _ _)).trans (ih _)

theorem touches_endTagClose (d : Draft) (stop : Nat) :
    d.Touches attached noted (d.endTagClose stop) := by
  unfold Draft.endTagClose
  split
  · exact .refl d
  · have hnext : d.Touches attached noted { d with endTagName := none } := touches_of_tree rfl
    dsimp only
    split
    · exact hnext.trans (touches_of_tree rfl)
    · exact (hnext.trans (touches_closeDownTo helement _ _ _ _)).trans
        ((touches_setEndTagStart helement _ _ _).trans (touches_close _ _))

theorem touches_finishIn (stop fuel : Nat) :
    ∀ d : Draft, d.Touches attached noted (finishIn fuel stop d) := by
  induction fuel with
  | zero => exact .refl
  | succ fuel ih =>
    intro d
    unfold finishIn
    split
    · exact .refl d
    · exact ((touches_supplyEndTagStart helement d _).trans
        (touches_closeUnterminated helement _ _)).trans (ih _)

end Elements

/-- **The end of the text** attaches nothing, and only elements take note of it. -/
theorem touches_finish (d : Draft) : d.Touches [] [.element] d.finish :=
  touches_finishIn (by simp) _ _ d

/-! ### Tokens -/

/-- **What a token touches.** -/
theorem touches_build (hshape : d.tree.Shape d.current) :
    d.Touches t.kind.attaches t.kind.notes (d.build t) := by
  have hcurrent := hshape.edge_lt
  cases hkind : t.kind <;> simp only [Draft.build, hkind, TokenKind.attaches, TokenKind.notes]
  case whitespace | unknown | eos => exact .refl d
  case endTag => exact touches_of_tree rfl
  case commentStart | codeBlockStart | mustacheStart =>
    exact touches_openNode hcurrent (by simp [NodeData.kind])
  case importStatement | jsxExpression | rawText =>
    exact touches_leaf hcurrent (by simp [NodeData.kind])
  case blockExpression => exact touches_blockExpression hcurrent (by simp)
  case text =>
    split
    · unfold Draft.templateText
      split
      · exact .refl d
      · exact touches_leaf hcurrent (by simp [NodeData.kind])
    · exact touches_proseText hshape (by simp) (by simp)
  case commentContent =>
    refine Touches.trans ?_ (touches_extend _ _)
    split
    · next hdata =>
      exact touches_setCurrent (by rw [hdata]; rfl) (by simp [NodeData.kind]) (by rw [hdata]; rfl)
    · exact .refl d
  case commentEnd =>
    split
    · exact touches_close d _
    · exact .refl d
  case paragraphEnd =>
    unfold Draft.paragraphEnd
    split
    · exact touches_close d _
    · exact .refl d
  case codeBlockAttribute => exact touches_codeBlockAttribute (by simp) d t
  case codeBlockContent => exact touches_codeBlockContent (by simp) d t
  case codeBlockEnd => exact touches_codeBlockEnd (by simp) d t
  case startTagOpen =>
    exact (touches_leaveAttribute d).trans
      (touches_openNode (leaveAttribute_current_lt hshape) (by simp [NodeData.kind]))
  case startTag => exact touches_startTag (by simp) d t
  case startTagClose => exact touches_startTagClose (by simp) d t
  case startTagSelfClose => exact touches_startTagSelfClose (by simp) d t
  case endTagOpen => exact (touches_leaveAttribute d).trans (touches_of_tree rfl)
  case endTagClose => exact touches_endTagClose (by simp) d _
  case attributeName | directiveName =>
    exact touches_attributeName hshape (by simp [NodeData.kind])
  case attributeDelimiter | attributeMark => exact touches_extend d _
  case attributeValue => exact touches_attributeValue (by simp) (by simp) d _
  case mustacheContent => exact touches_mustacheContent (by simp) d t
  case mustacheEnd => exact touches_mustacheEnd (by simp) (by simp) d t

/-- Its fault touches nothing. -/
theorem touches_takeToken (hshape : d.tree.Shape d.current) :
    d.Touches t.kind.attaches t.kind.notes (d.takeToken t) := by
  refine (touches_build hshape).trans (touches_of_tree ?_)
  unfold Draft.takeToken
  split <;> rfl

/-- A new node is of one of the kinds that the token may attach. -/
theorem kind_of_new {i : Nat} (hshape : d.tree.Shape d.current) (hnew : d.tree.size ≤ i)
    (hi : i < (d.takeToken t).tree.size) : (d.takeToken t).tree.kind i ∈ t.kind.attaches := by
  obtain ⟨_, _, hattached⟩ := (touches_takeToken hshape).fresh i hnew hi
  exact hattached

end Draft

end HybridMarkup
