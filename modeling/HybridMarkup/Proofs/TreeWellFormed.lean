/-
The tree of a parsed document is well formed.

`Draft.Laid` says how the nodes of a draft lie in the text, and what the operations on a draft do to
that. Here it is followed through a whole parse: each token leaves the draft laid out up to its own
end (`Draft.Laid.build`). The one token that needs more is the end of an end tag, which closes
elements at the place where the tag began. What is read within an end tag leaves the draft alone,
so in these two contexts of the scanner the draft is still laid out up to that place
(`Draft.LaidAt`).

Main statement: `Parse.tree_wellFormed`, for every dialect and every text. It puts together how the
spans lie, how the two directions of the parent relation agree, and in which order the nodes are
visited.
-/
import HybridMarkup.Proofs.TemplateRun
import HybridMarkup.Proofs.TreeSpans

set_option autoImplicit false

namespace HybridMarkup

open Text

namespace Draft

variable {text : Text} {pos pos' : Nat} {d : Draft} {t : Token}

/-! ## What the rules of the tokens do -/

/-- What the open node stands for may change as long as its kind does not, and it notes nothing. -/
theorem Laid.setCurrent {data data' : NodeData} (h : d.Laid text pos) (hdata : d.currentData = data)
    (hkind : data'.kind = data.kind) (hparts : data'.parts = []) :
    (d.setCurrent data').Laid text pos :=
  h.setData (hkind.trans (Tree.kind_of_data hdata).symm) (NodeData.fits_of_nil hparts _)

theorem Laid.leaveAttribute (h : d.Laid text pos) : d.leaveAttribute.Laid text pos := by
  unfold Draft.leaveAttribute
  split
  · next a hdata => exact h.ascend (h.ne_root_of_data hdata (by simp [NodeData.kind]))
  · next a hdata => exact h.ascend (h.ne_root_of_data hdata (by simp [NodeData.kind]))
  · exact h

/-- A value that is widened lies where the old one and what it is widened by lie. -/
theorem fits_widened {old : Option Span} {span bounds : Span}
    (hold : ∀ s ∈ old.toList, bounds.start ≤ s.start ∧ s.stop ≤ bounds.stop)
    (hstart : bounds.start ≤ span.start) (hstop : span.stop ≤ bounds.stop) :
    ∀ s ∈ (some ((old.map (·.cover span)).getD span)).toList,
      bounds.start ≤ s.start ∧ s.stop ≤ bounds.stop := by
  intro s hs
  obtain rfl : s = (old.map (·.cover span)).getD span := by simpa using hs
  cases old with
  | none => exact ⟨hstart, hstop⟩
  | some old =>
    have hold := hold old (by simp)
    exact ⟨Nat.le_min.2 ⟨hold.1, hstart⟩, Nat.max_le.2 ⟨hold.2, hstop⟩⟩

theorem Laid.attributeValue {span : Span} (h : d.Laid text pos)
    (hstart : (d.tree.span d.current).start ≤ span.start) (hspan : span.stop ≤ pos) :
    (d.attributeValue span).Laid text pos := by
  have hparts : d.currentData.Fits ((d.tree.span d.current).growTo span.stop) :=
    (h.parts d.current).grow rfl (Nat.le_max_left _ _)
  unfold Draft.attributeValue
  dsimp only
  split
  · next a hdata =>
    rw [hdata] at hparts
    exact h.fill (Tree.kind_of_data hdata).symm
      (fits_widened hparts hstart (Nat.le_max_right _ _)) hspan
  · next a hdata =>
    rw [hdata] at hparts
    exact h.fill (Tree.kind_of_data hdata).symm
      (fits_widened hparts hstart (Nat.le_max_right _ _)) hspan
  · exact h

/-- A node that is closed by a token ends where the token ends. -/
theorem Laid.closeAt {data : NodeData} (h : d.Laid text pos) (ht : t.Reads text pos pos')
    (hdata : d.currentData = data) (hkind : data.kind ≠ .root) :
    (d.close t.span.stop).Laid text pos' := by
  rw [ht.stop]
  exact (h.pass ht).close (h.ne_root_of_data hdata hkind)

/-- So does one in which something was noted before. -/
theorem Laid.closeWith {data data' : NodeData} (h : d.Laid text pos) (ht : t.Reads text pos pos')
    (hdata : d.currentData = data) (hkind : data'.kind = data.kind) (hroot : data.kind ≠ .root)
    (hfits : data'.Fits ⟨(d.tree.span d.current).start, pos'⟩) :
    ((d.setCurrent data').close t.span.stop).Laid text pos' := by
  rw [ht.stop]
  exact (h.pass ht).closeFilled (h.ne_root_of_data hdata hroot)
    (hkind.trans (Tree.kind_of_data hdata).symm) hfits

theorem Laid.extendAt (h : d.Laid text pos) (ht : t.Reads text pos pos') :
    (d.extend t.span.stop).Laid text pos' :=
  (h.pass ht).extend (Nat.le_of_eq ht.stop)

/-- The open node takes note of something in the token, and grows with it. -/
theorem Laid.fillAt {data data' : NodeData} (h : d.Laid text pos) (ht : t.Reads text pos pos')
    (hdata : d.currentData = data) (hkind : data'.kind = data.kind)
    (hfits : data'.Fits ⟨(d.tree.span d.current).start, t.span.stop⟩) :
    ((d.setCurrent data').extend t.span.stop).Laid text pos' :=
  (h.pass ht).fill (hkind.trans (Tree.kind_of_data hdata).symm)
    (hfits.grow rfl (Nat.le_max_right _ _)) (Nat.le_of_eq ht.stop)

/-- The first text of a paragraph begins where the paragraph does. -/
theorem Laid.proseText (h : d.Laid text pos) (ht : t.Reads text pos pos') :
    (d.proseText t).Laid text pos' := by
  have hnone (data : NodeData) (hparts : data.parts = []) : data.Fits t.span :=
    NodeData.fits_of_nil hparts _
  unfold Draft.proseText
  dsimp only
  split
  · exact h.leaf _ ht (hnone _ rfl)
  · have hleaf := (h.openNode .paragraph ht (hnone _ rfl)).leafIn (.text t.lexeme) (hnone _ rfl)
      (h.room_openNode .paragraph t.span) ht.cuts.ordered (Nat.le_of_eq ht.stop.symm)
      ht.cuts.stop_le
    rwa [ht.stop] at hleaf

/-- What a block notes of itself lies between its opening fence and the token that is read. -/
theorem Laid.fits_codeBlock {block block' : CodeBlock} (h : d.Laid text pos)
    (ht : t.Reads text pos pos') (hdata : d.currentData = .codeBlock block)
    (hcontent : block'.contentSpan = block.contentSpan ∨ block'.contentSpan = t.span ∨
      block'.contentSpan = Span.empty t.span.start)
    (hopener : block'.openerEnd = block.openerEnd ∨ block'.openerEnd = t.span.stop) :
    (NodeData.codeBlock block').Fits ⟨(d.tree.span d.current).start, t.span.stop⟩ := by
  have hroot : d.current ≠ Tree.root := h.ne_root_of_data hdata (by simp [NodeData.kind])
  have hstart : (d.tree.span d.current).start ≤ t.span.start := ht.start ▸ h.start_le d.current
  have hordered : t.span.start ≤ t.span.stop := ht.cuts.ordered
  have hold (s : Span) (hs : s ∈ (NodeData.codeBlock block).parts) :
      (d.tree.span d.current).start ≤ s.start ∧ s.stop ≤ t.span.stop := by
    have hparts := h.parts d.current
    rw [show d.tree.data d.current = _ from hdata] at hparts
    have hstop := Nat.le_trans (hparts s hs).2 (h.behind d.current hroot)
    exact ⟨(hparts s hs).1, Nat.le_trans hstop (ht.start ▸ hordered)⟩
  intro s hs
  rcases List.mem_cons.1 hs with rfl | hs
  · rcases hcontent with heq | heq | heq
    · rw [heq]
      exact hold _ List.mem_cons_self
    · rw [heq]
      exact ⟨hstart, Nat.le_refl _⟩
    · rw [heq]
      exact ⟨hstart, hordered⟩
  · obtain rfl := List.mem_singleton.1 hs
    rcases hopener with heq | heq
    · rw [heq]
      exact hold _ (List.mem_cons_of_mem _ (List.mem_singleton_self _))
    · rw [heq]
      exact ⟨Nat.le_trans hstart hordered, Nat.le_refl _⟩

theorem Laid.codeBlockAttribute (h : d.Laid text pos) (ht : t.Reads text pos pos') :
    (d.codeBlockAttribute t).Laid text pos' := by
  unfold Draft.codeBlockAttribute
  split
  · next block hdata =>
    have hfill (block' : CodeBlock) (hcontent : block'.contentSpan = block.contentSpan)
        (hopener : block'.openerEnd = t.span.stop) :
        ((d.setCurrent (.codeBlock block')).extend t.span.stop).Laid text pos' :=
      h.fillAt ht hdata rfl (h.fits_codeBlock ht hdata (.inl hcontent) (.inr hopener))
    dsimp only
    split
    · refine hfill _ ?_ ?_ <;> rfl
    · split
      -- to report a fault and to grow are independent of each other
      · refine (hfill _ ?_ ?_).report .attributeDuplicate t.span <;> rfl
      · refine hfill _ ?_ ?_ <;> rfl
  · exact h.pass ht

theorem Laid.codeBlockContent (h : d.Laid text pos) (ht : t.Reads text pos pos') :
    (d.codeBlockContent t).Laid text pos' := by
  unfold Draft.codeBlockContent
  dsimp only
  split
  · next block hdata =>
    exact h.fillAt ht hdata rfl (h.fits_codeBlock ht hdata (.inr (.inl rfl)) (.inl rfl))
  · exact h.extendAt ht

theorem Laid.codeBlockEnd (h : d.Laid text pos) (ht : t.Reads text pos pos') :
    (d.codeBlockEnd t).Laid text pos' := by
  unfold Draft.codeBlockEnd
  split
  · next block hdata =>
    dsimp only
    split
    · refine h.closeWith ht hdata rfl (by simp [NodeData.kind]) ?_
      exact ht.stop ▸ h.fits_codeBlock ht hdata (.inr (.inr rfl)) (.inl rfl)
    · exact h.closeAt ht hdata (by simp [NodeData.kind])
  · exact h.pass ht

/-- The inside of an expression lies in it, whether or not it has both its braces. -/
theorem Laid.blockExpression (h : d.Laid text pos) (ht : t.Reads text pos pos') :
    (d.blockExpression t).Laid text pos' := by
  unfold Draft.blockExpression
  dsimp only
  refine h.leaf _ ht fun s hs => ?_
  split at hs
  · obtain rfl := List.mem_singleton.1 hs
    exact ⟨Nat.le_succ _, Nat.sub_le _ _⟩
  · obtain rfl := List.mem_singleton.1 hs
    exact ⟨Nat.le_succ _, Nat.le_refl _⟩

theorem Laid.startTag (h : d.Laid text pos) (ht : t.Reads text pos pos') :
    (d.startTag t).Laid text pos' := by
  unfold Draft.startTag
  refine Laid.extendAt ?_ ht
  split
  · next e hdata => exact h.setCurrent hdata rfl rfl
  · exact h

/-- Before its value is read an attribute notes nothing. -/
theorem Laid.attributeName {data : NodeData} (h : d.Laid text pos) (ht : t.Reads text pos pos')
    (hparts : data.parts = []) : (d.attributeName t data).Laid text pos' := by
  have hopen := h.leaveAttribute.openNode data ht (NodeData.fits_of_nil hparts _)
  unfold Draft.attributeName
  dsimp only
  split
  · exact hopen.report _ _
  · exact hopen

theorem Laid.startTagClose (h : d.Laid text pos) (ht : t.Reads text pos pos') :
    (d.startTagClose t).Laid text pos' := by
  have hleave := h.leaveAttribute
  unfold Draft.startTagClose
  dsimp only
  split
  · next e hdata =>
    split
    · exact hleave.closeWith ht hdata rfl (by simp [NodeData.kind]) (NodeData.fits_of_nil rfl _)
    · exact Laid.extendAt (hleave.setCurrent hdata rfl rfl) ht
  · exact hleave.extendAt ht

theorem Laid.startTagSelfClose (h : d.Laid text pos) (ht : t.Reads text pos pos') :
    (d.startTagSelfClose t).Laid text pos' := by
  have hleave := h.leaveAttribute
  unfold Draft.startTagSelfClose
  dsimp only
  split
  · next e hdata =>
    exact hleave.closeWith ht hdata rfl (by simp [NodeData.kind]) (NodeData.fits_of_nil rfl _)
  · exact hleave.pass ht

theorem Laid.mustacheContent (h : d.Laid text pos) (ht : t.Reads text pos pos') :
    (d.mustacheContent t).Laid text pos' := by
  unfold Draft.mustacheContent
  dsimp only
  split
  · next code inner hdata =>
    refine h.fillAt ht hdata rfl fun s hs => ?_
    obtain rfl := List.mem_singleton.1 hs
    exact ⟨ht.start ▸ h.start_le d.current, Nat.le_refl _⟩
  · exact h.extendAt ht

/-- The mustache that is closed is part of the value of the attribute around it, if there is
one. -/
theorem Laid.mustacheEnd (h : d.Laid text pos) (ht : t.Reads text pos pos') :
    (d.mustacheEnd t).Laid text pos' := by
  unfold Draft.mustacheEnd
  split
  · next code inner hdata =>
    have hkind : (NodeData.mustache code inner).kind ≠ .root := by simp [NodeData.kind]
    have hroot := h.ne_root_of_data hdata hkind
    have hclose := h.closeAt ht hdata hkind
    obtain ⟨p, _, hp⟩ := h.shape.older d.current (Nat.pos_of_ne_zero hroot) h.shape.edge_lt
    have hparent : (d.close t.span.stop).tree.parent d.current = some p :=
      (parent_close d t.span.stop d.current).trans hp
    have hcurrent : (d.close t.span.stop).current = p := current_close hp t.span.stop
    refine hclose.attributeValue ?_ (hclose.behind d.current hroot)
    rw [hcurrent]
    exact hclose.starts d.current p hparent
  · exact h.pass ht

/-- **An end tag closes at the place where it began**, up to which the draft is laid out. The
element that is closed last ends with the tag. -/
theorem Laid.endTagClose {stop : Nat} (h : d.Laid text d.endTagStart)
    (hle : d.endTagStart ≤ stop) (hend : stop ≤ size text) :
    (d.endTagClose stop).Laid text stop := by
  unfold Draft.endTagClose
  split
  · exact h.mono hle hend
  · next name _ =>
    have hnext : ({ d with endTagName := none } : Draft).Laid text d.endTagStart :=
      h.of_tree rfl rfl
    dsimp only
    split
    · exact (hnext.mono hle hend).report _ _
    · next target hfind =>
      have hmem := List.mem_of_find?_eq_some hfind
      have helement := List.find?_some hfind
      have hunder : d.tree.Under d.current target := by
        rcases List.mem_cons.1 hmem with rfl | hmem
        · exact .refl _ _
        · exact Tree.under_of_mem_ancestors h.shape hmem
      have hroot : target ≠ Tree.root := by
        dsimp only at helement
        split at helement
        · next e hdata => exact h.ne_root_of_data hdata (by simp [NodeData.kind])
        · simp at helement
      obtain ⟨hclosed, hcurrent⟩ := hnext.closeDownTo target d.tree.size hunder
        (Nat.le_of_lt h.shape.edge_lt)
      refine Laid.close ((hclosed.setEndTagStart target d.endTagStart).mono hle hend) ?_
      rw [(sameWay_setEndTagStart _ target d.endTagStart).current, hcurrent]
      exact hroot

/-- Where the block has its content is not known before it is read: so far it is where the fence
ends. -/
theorem Laid.codeBlockStart (h : d.Laid text pos) (ht : t.Reads text pos pos') :
    (d.codeBlockStart t).Laid text pos' := by
  refine h.openNode _ ht fun s hs => ?_
  have hempty : s = Span.empty t.span.stop := by
    rcases List.mem_cons.1 hs with rfl | hs
    · rfl
    · exact List.mem_singleton.1 hs
  rw [hempty]
  exact ⟨ht.cuts.ordered, Nat.le_refl _⟩

theorem Laid.mustacheStart (h : d.Laid text pos) (ht : t.Reads text pos pos') :
    (d.mustacheStart t).Laid text pos' := by
  refine h.openNode _ ht fun s hs => ?_
  obtain rfl := List.mem_singleton.1 hs
  exact ⟨ht.cuts.ordered, Nat.le_refl _⟩

/-- A node that notes nothing. -/
theorem Laid.plainLeaf {data : NodeData} (h : d.Laid text pos) (ht : t.Reads text pos pos')
    (hparts : data.parts = []) : (d.leaf data t.span).Laid text pos' :=
  h.leaf data ht (NodeData.fits_of_nil hparts _)

/-- **A token leaves the draft laid out up to its end.** -/
theorem Laid.build (h : d.Laid text pos) (ht : t.Reads text pos pos')
    (hkind : t.kind ≠ .endTagClose) : (d.build t).Laid text pos' := by
  unfold Draft.build
  split
  case h_1 | h_2 | h_3 => exact h.pass ht
  case h_4 => exact h.openNode _ ht (NodeData.fits_of_nil rfl _)
  case h_5 =>
    refine Laid.extendAt ?_ ht
    split
    · next old hdata => exact h.setCurrent hdata rfl rfl
    · exact h
  case h_6 =>
    split
    · next hcomment =>
      have hkind : d.currentData.kind = .comment := hcomment
      exact h.closeAt ht rfl (by rw [hkind]; decide)
    · exact h.pass ht
  case h_7 =>
    split
    · unfold Draft.templateText
      split
      · exact h.pass ht
      · exact h.plainLeaf ht rfl
    · exact h.proseText ht
  case h_8 =>
    unfold Draft.paragraphEnd
    split
    · next hparagraph =>
      have hkind : d.currentData.kind = .paragraph := hparagraph
      exact h.closeAt ht rfl (by rw [hkind]; decide)
    · exact h.pass ht
  case h_9 => exact h.codeBlockStart ht
  case h_10 => exact h.codeBlockAttribute ht
  case h_11 => exact h.codeBlockContent ht
  case h_12 => exact h.codeBlockEnd ht
  case h_13 | h_14 => exact h.plainLeaf ht rfl
  case h_15 => exact h.blockExpression ht
  case h_16 => exact h.leaveAttribute.openNode _ ht (NodeData.fits_of_nil rfl _)
  case h_17 => exact h.startTag ht
  case h_18 => exact h.startTagClose ht
  case h_19 => exact h.startTagSelfClose ht
  case h_20 => exact (h.leaveAttribute.pass ht).of_tree rfl rfl
  case h_21 => exact (h.pass ht).of_tree rfl rfl
  case h_22 hclose => exact absurd hclose hkind
  case h_23 => exact h.attributeName ht rfl
  case h_24 =>
    refine h.attributeName ht ?_
    rw [NodeData.parts, TemplateArtifact.valueSpan_ofRaw]
    rfl
  case h_25 | h_26 => exact h.extendAt ht
  case h_27 =>
    have hstart := ht.start ▸ h.start_le d.current
    exact (h.pass ht).attributeValue hstart (Nat.le_of_eq ht.stop)
  case h_28 => exact h.mustacheStart ht
  case h_29 => exact h.mustacheContent ht
  case h_30 => exact h.mustacheEnd ht
  case h_31 => exact h.plainLeaf ht rfl

end Draft

/-! ## The scanner within an end tag -/

namespace Memory

variable {dialect : Dialect} {before : Option Char} {m m' : Memory} {u rest : Text}
  {kind : TokenKind} {error : Option LexError}

/-- The scanner stands behind the bracket and slash of an end tag. -/
def InEndTag (m : Memory) : Prop := m.state = .endTagName ∨ m.state = .endTag

/-- What a comment or a mustache returns to is no end tag, and no opening line of a block. -/
def ReturnsOutside (m : Memory) : Prop :=
  m.returnState ≠ .endTagName ∧ m.returnState ≠ .endTag ∧ m.returnState ≠ .fenceInfo

theorem Turns.inEndTag (h : m.Turns u m') (hin : m'.InEndTag) : m.InEndTag := by
  cases h <;> simp_all [InEndTag, goto]

theorem Turns.returnState (h : m.Turns u m') : m'.returnState = m.returnState := by
  cases h <;> rfl

/-- An end tag is closed from within. -/
theorem Yields.of_endTagClose (h : m.Yields dialect before u .endTagClose error rest m') :
    m.InEndTag := by
  cases h with
  | endTagClose state _ => exact .inr state
  | endTagBroken state _ => exact .inr state

/-- **Within an end tag there are only its opening, its name, and what means nothing.** -/
theorem Yields.inEndTag (h : m.Yields dialect before u kind error rest m')
    (hreturn : m.ReturnsOutside) (hin : m'.InEndTag) :
    kind = .endTagOpen ∨
      m.InEndTag ∧ (kind = .whitespace ∨ kind = .unknown ∨ kind = .endTag) := by
  obtain ⟨hname, htag, _⟩ := hreturn
  cases h with
  | startTagClose _ _ =>
    simp only [InEndTag, goto, bodyState] at hin
    split at hin <;> simp at hin
  | closedExpression state _ _ | openExpression state _ _ | jsxExpression state _ _ =>
    rcases state with state | state <;> simp [InEndTag, state] at hin
  | _ => simp_all [InEndTag, goto, enter, leave]

theorem Yields.returnsOutside (h : m.Yields dialect before u kind error rest m')
    (hreturn : m.ReturnsOutside) : m'.ReturnsOutside := by
  cases h with
  | commentStart state _ =>
    rcases state with state | state <;> simp [ReturnsOutside, enter, state]
  | contentMustache state _ _ => simp [ReturnsOutside, enter, state]
  | valueMustache state _ _ _ => simp [ReturnsOutside, enter, state]
  | _ => exact hreturn

end Memory

/-! ## All tokens -/

namespace Draft

variable {text : Text} {pos : Nat} {d : Draft} {m : Memory}

/-- The draft is laid out up to `pos`, and within an end tag up to where the tag began. -/
structure LaidAt (text : Text) (m : Memory) (pos : Nat) (d : Draft) : Prop where
  laid : d.Laid text pos
  returns : m.ReturnsOutside
  endTag : m.InEndTag → d.endTagStart ≤ pos ∧ d.Laid text d.endTagStart

theorem LaidAt.turns {m' : Memory} {u : Text} (h : d.LaidAt text m pos) (hturn : m.Turns u m') :
    d.LaidAt text m' pos := by
  refine ⟨h.laid, ?_, fun hin => h.endTag (hturn.inEndTag hin)⟩
  unfold Memory.ReturnsOutside
  rw [hturn.returnState]
  exact h.returns

theorem LaidAt.takeToken {m' : Memory} {pos' : Nat} {t : Token}
    (h : (d.build t).LaidAt text m' pos') : (d.takeToken t).LaidAt text m' pos' := by
  unfold Draft.takeToken
  split
  · exact ⟨h.laid.reportLexical _ _, h.returns, fun hin =>
      ⟨(h.endTag hin).1, (h.endTag hin).2.reportLexical _ _⟩⟩
  · exact h

/-- **A token keeps the draft laid out.** -/
theorem LaidAt.step {m' : Memory} {u rest : Text} {dialect : Dialect} {before : Option Char}
    {kind : TokenKind} {error : Option LexError} {pos' : Nat} {t : Token}
    (h : d.LaidAt text m pos) (hy : m.Yields dialect before u kind error rest m')
    (ht : t.Reads text pos pos') (hkind : t.kind = kind) : (d.build t).LaidAt text m' pos' := by
  refine ⟨?_, hy.returnsOutside h.returns, fun hin => ?_⟩
  · by_cases hclose : t.kind = .endTagClose
    · rw [hclose] at hkind
      subst hkind
      obtain ⟨hle, hlaid⟩ := h.endTag hy.of_endTagClose
      have hstop : t.span.stop = pos' := ht.stop
      simp only [Draft.build, hclose]
      rw [hstop]
      exact hlaid.endTagClose (Nat.le_trans hle ht.le) (hstop ▸ ht.cuts.stop_le)
    · exact h.laid.build ht hclose
  · rcases hy.inEndTag h.returns hin with hopen | ⟨hin, hidle⟩
    · have hbuild : d.build t
          = { d.leaveAttribute with endTagStart := t.span.start, endTagName := none } := by
        simp only [Draft.build, hkind, hopen, Draft.endTagOpen]
      rw [hbuild]
      refine ⟨ht.start ▸ ht.le, ?_⟩
      show Draft.Laid text t.span.start _
      rw [ht.start]
      exact h.laid.leaveAttribute.of_tree rfl rfl
    -- what else is read within an end tag changes nothing in the tree
    · obtain ⟨hle, hlaid⟩ := h.endTag hin
      have hle := Nat.le_trans hle ht.le
      rcases hidle with hidle | hidle | hidle
      · simp only [Draft.build, hkind, hidle]
        exact ⟨hle, hlaid⟩
      · simp only [Draft.build, hkind, hidle]
        exact ⟨hle, hlaid⟩
      · simp only [Draft.build, hkind, hidle, Draft.endTagNamed]
        exact ⟨hle, hlaid.of_tree rfl rfl⟩

theorem LaidAt.scan {s : Scanner} (h : d.LaidAt text s.memory s.offset) (hw : s.Within text) :
    (d.takeToken s.scan.1).LaidAt text s.scan.2.memory s.scan.2.offset := by
  refine LaidAt.takeToken ?_
  have hreads := hw.reads
  by_cases hrest : s.rest = []
  · have hscan := Scanner.scan_at_end hrest
    have hkind : s.scan.1.kind = .eos := (s.scan_kind_eq_eos_iff).2 hrest
    have hbuild : d.build s.scan.1 = d := by simp only [Draft.build, hkind]
    rw [hbuild]
    refine ⟨h.laid.pass hreads, ?_, fun hin => ?_⟩
    · rw [hscan]
      exact h.returns
    · rw [hscan] at hin
      obtain ⟨hle, hlaid⟩ := h.endTag hin
      exact ⟨Nat.le_trans hle hreads.le, hlaid⟩
  · obtain ⟨m, kind, error, rest, m', hturns, hyields, hscan⟩ := Scanner.scan_before_end hrest
    have hm : d.LaidAt text m s.offset :=
      hturns.keeps (P := fun m => d.LaidAt text m s.offset) (fun _ _ h hturn => h.turns hturn) h
    have hstep := hm.step hyields hreads (by rw [hscan]; rfl)
    rw [hscan] at hstep ⊢
    exact ⟨hstep.laid, hstep.returns, hstep.endTag⟩

theorem laidAt_start (dialect : Dialect) (text : Text) :
    (Draft.start dialect text).LaidAt text {} 0 := by
  -- beyond the root there is nothing yet
  have hother (i : Nat) (hi : i ≠ Tree.root) :
      (Draft.start dialect text).tree.node i = { span := ⟨0, 0⟩, data := .root } :=
    Tree.node_of_size_le (Nat.one_le_iff_ne_zero.2 hi)
  have hnone (i : Nat) : (Draft.start dialect text).tree.parent i = none := by
    by_cases hi : i = Tree.root
    · rw [hi]
      rfl
    · rw [Tree.parent, hother i hi]
  have hspan (i : Nat) (hi : i ≠ Tree.root) : (Draft.start dialect text).tree.span i = ⟨0, 0⟩ := by
    rw [Tree.span, hother i hi]
  have hdata (i : Nat) : (Draft.start dialect text).tree.data i = .root := by
    by_cases hi : i = Tree.root
    · rw [hi]
      rfl
    · rw [Tree.data, hother i hi]
  refine ⟨⟨rfl, Tree.shape_start dialect text, ?_, rfl, rfl, Nat.zero_le _, ?_, ?_, ?_, ?_, ?_,
    ?_⟩, ?_, ?_⟩
  · intro i p hp
    rw [hnone] at hp
    simp at hp
  · intro i
    by_cases hi : i = Tree.root
    · rw [hi]
      exact Nat.zero_le _
    · refine Nat.le_of_eq ?_
      rw [hspan i hi]
  · intro i hi
    refine Nat.le_of_eq ?_
    rw [hspan i hi]
  · intro i p hp
    rw [hnone] at hp
    simp at hp
  · intro i j p hp
    rw [hnone] at hp
    simp at hp
  · intro i
    rw [hdata]
    exact NodeData.fits_of_nil rfl _
  · intro i p hp
    rw [hnone] at hp
    simp at hp
  · exact ⟨by decide, by decide⟩
  · rintro (hin | hin) <;> simp at hin

end Draft

/-- **A parsed document is laid out up to its end**, and nothing but the root is open. -/
theorem Parse.draft_laid (dialect : Dialect) (text : Text) :
    (Parse.draft dialect text).Laid text (size text) ∧
      (Parse.draft dialect text).current = Tree.root := by
  obtain ⟨s, hs, hlaid⟩ := Scanner.tokensIn_foldl
    (P := fun s d _ => s.Within text ∧ d.LaidAt text s.memory s.offset) (f := Draft.takeToken)
    (g := fun u _ => u) (fun s d _ h => ⟨h.1.scan, h.2.scan h.1⟩) (tokenLimit text) (b := ())
    ⟨Scanner.start_within dialect text, Draft.laidAt_start dialect text⟩
  exact hlaid.laid.finish

/-! ## Well-formed trees -/

namespace Tree

variable {t : Tree} {text : Text} {i j p : Nat}

/-- A tree that is well formed over its text. -/
structure WellFormed (t : Tree) (text : Text) : Prop where
  text_eq : t.text = text
  /-- The root covers the document and has no parent. -/
  root_span : t.span root = ⟨0, Text.size text⟩
  root_parent : t.parent root = none
  /-- No span is inverted. -/
  ordered : ∀ i : Nat, (t.span i).start ≤ (t.span i).stop
  /-- A node lies within its parent. -/
  nested : ∀ i p : Nat, t.parent i = some p → (t.span p).includes (t.span i) = true
  /-- Of two siblings the first ends before the second begins. -/
  apart : ∀ p : Nat, (t.children p).Pairwise fun i j => (t.span i).stop ≤ (t.span j).start
  /-- The children of a node are the nodes that have it for a parent. -/
  linked : ∀ i p : Nat, i ∈ t.children p ↔ t.parent i = some p
  /-- A node stands among the children of its parent where it says it does, and there only. -/
  slotted : ∀ i p k : Nat, (t.children p)[k]? = some i ↔ t.parent i = some p ∧ (t.node i).slot = k
  /-- Every node but the root is attached. -/
  attached : ∀ i : Nat, i < t.size → i ≠ root → ∃ p : Nat, p < t.size ∧ t.parent i = some p
  /-- The nodes are visited in the order in which they were allocated, and all of them are. -/
  preorder_eq : t.preorder = List.range t.size

theorem children_of_size_le (h : t.size ≤ p) : t.children p = [] := by
  rw [children, node_of_size_le h]

end Tree

theorem Draft.Laid.wellFormed {d : Draft} {text : Text} {pos : Nat} (h : d.Laid text pos)
    (hcurrent : d.current = Tree.root) : d.tree.WellFormed text := by
  have hshape := h.shape
  have hlinked (i p : Nat) : i ∈ d.tree.children p ↔ d.tree.parent i = some p := by
    by_cases hp : p < d.tree.size
    · rw [hshape.listed p hp, List.mem_filter, List.mem_range, decide_eq_true_eq]
      exact and_iff_right_of_imp Tree.lt_size_of_parent
    · rw [Tree.children_of_size_le (Nat.le_of_not_lt hp)]
      refine iff_of_false List.not_mem_nil fun hparent => hp ?_
      have hi := Tree.lt_size_of_parent hparent
      exact Nat.lt_trans (hshape.parent_lt hparent) hi
  have hincreasing (p : Nat) : (d.tree.children p).Pairwise (· < ·) := by
    by_cases hp : p < d.tree.size
    · rw [hshape.listed p hp]
      exact List.pairwise_lt_range.filter _
    · rw [Tree.children_of_size_le (Nat.le_of_not_lt hp)]
      exact .nil
  -- nothing is open but the root, which has no parent
  have hclosed (i p : Nat) (hp : d.tree.parent i = some p) : ¬ d.tree.Under d.current i := by
    rw [hcurrent]
    exact fun hunder => h.ne_root_of_parent hp (hunder.eq_of_orphan hshape.root)
  refine ⟨h.text_eq, h.root_span, hshape.root, h.ordered, ?_, ?_, hlinked, ?_, ?_,
    Tree.preorder_eq_range hshape⟩
  · intro i p hp
    have hstart := h.starts i p hp
    have hstop := h.inside i p hp (hclosed i p hp)
    simp [Span.includes, hstart, hstop]
  · intro p
    refine (hincreasing p).imp_of_mem fun {i j} hi hj hlt => ?_
    exact h.apart i j p ((hlinked i p).1 hi) ((hlinked j p).1 hj) hlt
  · intro i p k
    constructor
    · intro hk
      have hp := (hlinked i p).1 (List.mem_of_getElem? hk)
      refine ⟨hp, ?_⟩
      -- the children are numbered without repetition, so `i` stands in one place only
      have hnodup : (d.tree.children p).Nodup := (hincreasing p).imp Nat.ne_of_lt
      have hslot := h.slots i p hp
      exact (List.getElem?_inj (List.getElem?_eq_some_iff.1 hslot).1 hnodup).1 (hslot.trans hk.symm)
    · rintro ⟨hp, rfl⟩
      exact h.slots i p hp
  · intro i hi hroot
    obtain ⟨p, hlt, hp⟩ := hshape.older i (Nat.pos_of_ne_zero hroot) hi
    exact ⟨p, Nat.lt_trans hlt hi, hp⟩

/-- **The tree of a parsed document is well formed**, in every dialect and for every text. -/
theorem Parse.tree_wellFormed (options : ParseOptions) (text : Text) :
    (Parse.ofText options text).tree.WellFormed text := by
  obtain ⟨hlaid, hcurrent⟩ := Parse.draft_laid options.dialect text
  exact hlaid.wellFormed hcurrent

end HybridMarkup
