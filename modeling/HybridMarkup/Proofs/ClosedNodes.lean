/-
What is closed stays as it is.

A draft changes at the node that is open, at the nodes above that one, and where it grows, behind
all of its nodes. A node that is not on the way from the open node up to the root is closed
(`Draft.Closed`), and closed for good: nothing that is read afterwards, and nothing that is done at
the end of the text, changes it or opens it again (`Draft.Spares`).

There is one lemma for each way of working on a draft, as every rule is put together from these.

Main statements: a token spares what is closed (`Draft.spares_takeToken`), and so does the end of
the text (`Draft.spares_finish`).
-/
import HybridMarkup.Proofs.OpenElements
import HybridMarkup.Proofs.TreeSpans

set_option autoImplicit false

namespace HybridMarkup

namespace Tree

variable {t t' : Tree} {i j : Nat}

theorem Under.congr (h : t.Under i j) (hparent : ∀ k, t'.parent k = t.parent k) : t'.Under i j :=
  h.mono fun k _ hp => (hparent k).trans hp

/-- Nothing that was there before stands under a new node. -/
theorem Under.of_sprout {p : Nat} {data : NodeData} {span : Span} (hshape : t.Shape p)
    (hi : i < t.size)
    (h : (t.sprout data span p).Under i j) : t.Under i j := by
  have hp := hshape.edge_lt
  induction h with
  | refl => exact .refl t i
  | @tail k q hk hq ih =>
    have hle : k ≤ i := Under.le hshape ih
    rw [parent_sprout hp, if_neg (by omega)] at hq
    exact ih.tail hq

end Tree

namespace Draft

variable {d d' d'' : Draft} {i : Nat} {data : NodeData} {t : Token}

/-- The node is part of the tree, and not on the way from the open node up to the root. -/
structure Closed (d : Draft) (i : Nat) : Prop where
  lt : i < d.tree.size
  off : ¬ d.tree.Under d.current i

/-- What is closed in the first draft is closed in the second, and the same. -/
def Spares (d d' : Draft) : Prop :=
  ∀ i, d.Closed i → d'.Closed i ∧ d'.tree.node i = d.tree.node i

theorem Spares.refl (d : Draft) : d.Spares d := fun _ h => ⟨h, rfl⟩

theorem Spares.trans (h : d.Spares d') (h' : d'.Spares d'') : d.Spares d'' := fun i hi =>
  have hmid := h i hi
  ⟨(h' i hmid.1).1, (h' i hmid.1).2.trans hmid.2⟩

/-- The children of the open node are closed. -/
theorem closed_of_parent_current (hshape : d.tree.Shape d.current)
    (hp : d.tree.parent i = some d.current) : d.Closed i :=
  ⟨Tree.lt_size_of_parent hp, fun hunder =>
    absurd (hunder.le hshape) (Nat.not_le_of_lt (hshape.parent_lt hp))⟩

/-- What stands under a closed node is closed. -/
theorem Closed.child {p : Nat} (h : d.Closed p) (hp : d.tree.parent i = some p) : d.Closed i :=
  ⟨Tree.lt_size_of_parent hp, fun hunder => h.off (hunder.tail hp)⟩

/-! ## Ways of working on a draft -/

/-- What is reported, and what is remembered of an end tag, is no matter of the tree. -/
theorem spares_of_tree (htree : d'.tree = d.tree) (hcurrent : d'.current = d.current) :
    d.Spares d' := by
  intro i h
  refine ⟨⟨htree ▸ h.lt, ?_⟩, by rw [htree]⟩
  rw [htree, hcurrent]
  exact h.off

theorem spares_setSpan (hi : d.tree.Under d.current i) (span : Span) :
    d.Spares { d with tree := d.tree.setSpan i span } := by
  intro j h
  have hne : i ≠ j := fun heq => h.off (heq ▸ hi)
  refine ⟨⟨?_, fun hunder => h.off ?_⟩, ?_⟩
  · exact (Tree.size_setSpan ..).symm ▸ h.lt
  · exact hunder.congr fun k => (Tree.parent_setSpan ..).symm
  · exact (Tree.node_setSpan ..).trans (if_neg fun heq => hne heq.1)

theorem spares_setData (hi : d.tree.Under d.current i) (data : NodeData) :
    d.Spares (d.setData i data) := by
  intro j h
  have hne : i ≠ j := fun heq => h.off (heq ▸ hi)
  refine ⟨⟨?_, fun hunder => h.off ?_⟩, ?_⟩
  · exact (Tree.size_setData ..).symm ▸ h.lt
  · exact hunder.congr fun k => (Tree.parent_setData ..).symm
  · exact (Tree.node_setData ..).trans (if_neg fun heq => hne heq.1)

theorem spares_setCurrent (d : Draft) (data : NodeData) : d.Spares (d.setCurrent data) :=
  spares_setData (.refl _ _) data

theorem spares_extend (d : Draft) (stop : Nat) : d.Spares (d.extend stop) :=
  spares_setSpan (.refl _ _) _

/-- Another node is open, which is on the way up. -/
theorem spares_moveTo (hi : d.tree.Under d.current i) : d.Spares { d with current := i } :=
  fun _ h => ⟨⟨h.lt, fun hunder => h.off (hi.trans hunder)⟩, rfl⟩

theorem spares_ascend (d : Draft) : d.Spares d.ascend := by
  unfold Draft.ascend
  split
  · exact .refl d
  · next p hp =>
    have hup : d.Spares { d with current := p } := spares_moveTo (.of_parent hp (.refl _ _))
    exact hup.trans (spares_setSpan (.refl _ _) _)

theorem spares_close (d : Draft) (stop : Nat) : d.Spares (d.close stop) :=
  (spares_setSpan (.refl _ _) _).trans (spares_ascend _)

theorem spares_leaf (hshape : d.tree.Shape d.current) (data : NodeData) (span : Span) :
    d.Spares (d.leaf data span) := by
  have hsprout : d.Spares { d with tree := d.tree.sprout data span d.current } := by
    intro j h
    have hne : j ≠ d.current := fun heq => h.off (heq ▸ .refl _ _)
    refine ⟨⟨?_, fun hunder => h.off (hunder.of_sprout hshape hshape.edge_lt)⟩, ?_⟩
    · exact (Tree.size_sprout ..).symm ▸ Nat.lt_succ_of_lt h.lt
    · exact (Tree.node_sprout _ _ hshape.edge_lt j).trans
        ((if_neg (Nat.ne_of_lt h.lt)).trans (if_neg hne))
  exact hsprout.trans (spares_extend _ _)

theorem spares_openNode (hshape : d.tree.Shape d.current) (data : NodeData) (span : Span) :
    d.Spares (d.openNode data span) := by
  obtain ⟨_, hparent⟩ := node_leaf data span hshape.edge_lt
  intro j h
  obtain ⟨hclosed, hnode⟩ := spares_leaf hshape data span j h
  refine ⟨⟨hclosed.lt, fun hunder => ?_⟩, hnode⟩
  -- what is above the new node is that node, or was above the open one before
  rcases hunder.cases_parent hparent with heq | hunder
  · exact absurd h.lt (heq ▸ Nat.lt_irrefl _)
  · exact hclosed.off hunder

theorem shape_setCurrent (hshape : d.tree.Shape d.current) (data : NodeData) :
    (d.setCurrent data).tree.Shape (d.setCurrent data).current :=
  hshape.congr (Tree.size_setData ..) (fun _ => Tree.parent_setData ..)
    fun _ => Tree.children_setData ..

theorem shape_extend (hshape : d.tree.Shape d.current) (stop : Nat) :
    (d.extend stop).tree.Shape (d.extend stop).current :=
  hshape.congr (Tree.size_setSpan ..) (fun _ => Tree.parent_setSpan ..)
    fun _ => Tree.children_setSpan ..

/-! ## Rules -/

theorem spares_leaveAttribute (d : Draft) : d.Spares d.leaveAttribute := by
  unfold Draft.leaveAttribute
  split
  · exact spares_ascend d
  · exact spares_ascend d
  · exact .refl d

theorem shape_ascend (hshape : d.tree.Shape d.current) : d.ascend.tree.Shape d.ascend.current := by
  unfold Draft.ascend
  split
  · exact hshape
  · next p hp =>
    exact (hshape.up hp).congr (Tree.size_setSpan ..) (fun _ => Tree.parent_setSpan ..)
      fun _ => Tree.children_setSpan ..

theorem shape_close (hshape : d.tree.Shape d.current) (stop : Nat) :
    (d.close stop).tree.Shape (d.close stop).current :=
  shape_ascend (hshape.congr (Tree.size_setSpan ..) (fun _ => Tree.parent_setSpan ..)
    fun _ => Tree.children_setSpan ..)

theorem shape_leaveAttribute (hshape : d.tree.Shape d.current) :
    d.leaveAttribute.tree.Shape d.leaveAttribute.current := by
  unfold Draft.leaveAttribute
  split
  · exact shape_ascend hshape
  · exact shape_ascend hshape
  · exact hshape

theorem spares_attributeValue (d : Draft) (span : Span) : d.Spares (d.attributeValue span) := by
  unfold Draft.attributeValue
  dsimp only
  split
  · exact (spares_setCurrent d _).trans (spares_extend _ _)
  · exact (spares_setCurrent d _).trans (spares_extend _ _)
  · exact .refl d

theorem spares_attributeName (hshape : d.tree.Shape d.current) (t : Token) (data : NodeData) :
    d.Spares (d.attributeName t data) := by
  have hopen := (spares_leaveAttribute d).trans
    (spares_openNode (shape_leaveAttribute hshape) data t.span)
  unfold Draft.attributeName
  dsimp only
  split
  · exact hopen.trans (spares_of_tree rfl rfl)
  · exact hopen

theorem spares_startTag (d : Draft) (t : Token) : d.Spares (d.startTag t) := by
  unfold Draft.startTag
  refine Spares.trans ?_ (spares_extend _ _)
  split
  · exact spares_setCurrent d _
  · exact .refl d

theorem spares_startTagClose (d : Draft) (t : Token) : d.Spares (d.startTagClose t) := by
  unfold Draft.startTagClose
  refine (spares_leaveAttribute d).trans ?_
  dsimp only
  split
  · split
    · exact (spares_setCurrent _ _).trans (spares_close _ _)
    · exact (spares_setCurrent _ _).trans (spares_extend _ _)
  · exact spares_extend _ _

theorem spares_startTagSelfClose (d : Draft) (t : Token) : d.Spares (d.startTagSelfClose t) := by
  unfold Draft.startTagSelfClose
  refine (spares_leaveAttribute d).trans ?_
  dsimp only
  split
  · exact (spares_setCurrent _ _).trans (spares_close _ _)
  · exact .refl _

theorem spares_mustacheContent (d : Draft) (t : Token) : d.Spares (d.mustacheContent t) := by
  unfold Draft.mustacheContent
  refine Spares.trans ?_ (spares_extend _ _)
  split
  · exact spares_setCurrent d _
  · exact .refl d

theorem spares_mustacheEnd (d : Draft) (t : Token) : d.Spares (d.mustacheEnd t) := by
  unfold Draft.mustacheEnd
  split
  · exact (spares_close d _).trans (spares_attributeValue _ _)
  · exact .refl d

/-! ### Closing what nothing closed -/

/-- **What is done to a node that nothing closed.** An element has an end of its start tag
afterwards; nothing else changes but that the node is closed. -/
theorem exists_closeUnterminated (d : Draft) (stop : Nat) :
    ∃ d' : Draft, d.closeUnterminated stop = d'.close stop ∧ d'.current = d.current ∧
      ((∃ e, d.currentData = .element e ∧ d'.tree = d.tree.setData d.current
          (.element { e with startTagEnd := some (e.startTagEnd.getD stop) })) ∨
        d.currentData.element? = none ∧ d'.tree = d.tree) := by
  refine ⟨_, rfl, ?_, ?_⟩
  · split
    · rfl
    · rfl
    · split <;> rfl
  · split
    · next e hdata => exact .inl ⟨e, hdata, rfl⟩
    · next hdata => exact .inr ⟨congrArg NodeData.element? hdata, rfl⟩
    · next hdata _ =>
      refine .inr ⟨?_, by split <;> rfl⟩
      cases h : d.currentData with
      | element e => exact absurd h (hdata e)
      | _ => rfl

theorem spares_closeUnterminated (d : Draft) (stop : Nat) : d.Spares (d.closeUnterminated stop) := by
  obtain ⟨d', hclose, hcurrent, htree⟩ := d.exists_closeUnterminated stop
  rw [hclose]
  refine Spares.trans ?_ (spares_close _ _)
  rcases htree with ⟨e, _, htree⟩ | ⟨_, htree⟩
  · exact (spares_setCurrent d _).trans (spares_of_tree htree hcurrent)
  · exact spares_of_tree htree hcurrent

theorem parent_closeUnterminated (d : Draft) (stop j : Nat) :
    (d.closeUnterminated stop).tree.parent j = d.tree.parent j := by
  obtain ⟨d', hclose, _, ⟨e, _, htree⟩ | ⟨_, htree⟩⟩ := d.exists_closeUnterminated stop
  · rw [hclose, parent_close, htree, Tree.parent_setData]
  · rw [hclose, parent_close, htree]

theorem spares_setEndTagStart (hi : d.tree.Under d.current i) (start : Nat) :
    d.Spares (d.setEndTagStart i start) := by
  unfold Draft.setEndTagStart
  split
  · exact spares_setData hi _
  · exact .refl d

theorem spares_supplyEndTagStart (d : Draft) (stop : Nat) :
    d.Spares (d.supplyEndTagStart stop) := by
  unfold Draft.supplyEndTagStart
  split
  · exact spares_setCurrent d _
  · exact .refl d

theorem spares_closeDownTo (target start fuel : Nat) :
    ∀ d : Draft, d.Spares (closeDownTo target start fuel d) := by
  induction fuel with
  | zero => exact .refl
  | succ fuel ih =>
    intro d
    unfold closeDownTo
    split
    · exact .refl d
    · exact ((spares_setEndTagStart (.refl _ _) _).trans (spares_closeUnterminated _ _)).trans (ih _)

/-- Closing goes up to the node that it is to stop at. -/
theorem current_closeDownTo (target start fuel : Nat) :
    ∀ {d : Draft}, (∀ j p : Nat, d.tree.parent j = some p → p < j) →
      d.tree.Under d.current target → d.current ≤ fuel →
      (closeDownTo target start fuel d).current = target := by
  induction fuel with
  | zero =>
    intro d hlt hunder hfuel
    rcases d.tree.parent_cases d.current with hp | ⟨p, hp⟩
    · exact (hunder.eq_of_orphan hp).symm
    · exact absurd (Nat.lt_of_lt_of_le (hlt _ _ hp) hfuel) (Nat.not_lt_zero _)
  | succ fuel ih =>
    intro d hlt hunder hfuel
    unfold closeDownTo
    split
    · next heq => exact heq
    · next hne =>
      have hway := sameWay_setEndTagStart d d.current start
      rcases d.tree.parent_cases d.current with hp | ⟨p, hp⟩
      · exact absurd (hunder.eq_of_orphan hp).symm hne
      · have hp' : (d.setEndTagStart d.current start).tree.parent
            (d.setEndTagStart d.current start).current = some p := by
          rw [hway.current, hway.parent, hp]
        have hparent (j : Nat) : ((d.setEndTagStart d.current start).closeUnterminated
            start).tree.parent j = d.tree.parent j :=
          (parent_closeUnterminated ..).trans (hway.parent j)
        have hup := (hunder.cases_parent hp).resolve_left (Ne.symm hne)
        refine ih (fun j q hq => hlt j q (hparent j ▸ hq)) ?_ ?_
        · rw [current_closeUnterminated hp']
          exact hup.congr hparent
        · rw [current_closeUnterminated hp']
          exact Nat.le_of_lt_succ (Nat.lt_of_lt_of_le (hlt _ _ hp) hfuel)

/-- The element that an end tag is about is found among the open nodes, and reached. -/
theorem current_closeDownTo_of_openElement {name : Text} {target : Nat}
    (hshape : d.tree.Shape d.current)
    (hfind : ({ d with endTagName := none } : Draft).openElement? name = some target) :
    (closeDownTo target d.endTagStart d.tree.size { d with endTagName := none }).current
      = target := by
  have hmem := List.mem_of_find?_eq_some hfind
  have hunder : d.tree.Under d.current target := by
    rcases List.mem_cons.1 hmem with rfl | hmem
    · exact .refl _ _
    · exact Tree.under_of_mem_ancestors hshape hmem
  exact current_closeDownTo target d.endTagStart d.tree.size (d := { d with endTagName := none })
    (fun j p => hshape.parent_lt) hunder (Nat.le_of_lt hshape.edge_lt)

theorem spares_endTagClose (hshape : d.tree.Shape d.current) (stop : Nat) :
    d.Spares (d.endTagClose stop) := by
  unfold Draft.endTagClose
  split
  · exact .refl d
  · next name _ =>
    have hnext : d.Spares { d with endTagName := none } := spares_of_tree rfl rfl
    dsimp only
    split
    · exact hnext.trans (spares_of_tree rfl rfl)
    · next target hfind =>
      have hcurrent := current_closeDownTo_of_openElement hshape hfind
      refine (hnext.trans (spares_closeDownTo target _ _ _)).trans
        (Spares.trans (spares_setEndTagStart ?_ _) (spares_close _ _))
      rw [hcurrent]
      exact .refl _ _

theorem spares_finishIn (stop fuel : Nat) : ∀ d : Draft, d.Spares (finishIn fuel stop d) := by
  induction fuel with
  | zero => exact .refl
  | succ fuel ih =>
    intro d
    unfold finishIn
    split
    · exact .refl d
    · exact ((spares_supplyEndTagStart d stop).trans (spares_closeUnterminated _ _)).trans (ih _)

/-- **The end of the text** spares what is closed. -/
theorem spares_finish (d : Draft) : d.Spares d.finish := spares_finishIn _ _ d

/-! ## Tokens -/

theorem shape_openNode (hshape : d.tree.Shape d.current) (data : NodeData) (span : Span) :
    (d.openNode data span).tree.Shape (d.openNode data span).current := by
  have hleaf : (d.leaf data span).tree.Shape d.current :=
    (hshape.sprout data span).congr (Tree.size_setSpan ..) (fun _ => Tree.parent_setSpan ..)
      fun _ => Tree.children_setSpan ..
  -- the newest node is on the right edge of any tree that has its shape
  have hlast := hleaf.last
  rwa [size_leaf, Nat.add_sub_cancel] at hlast

theorem spares_proseText (hshape : d.tree.Shape d.current) (t : Token) :
    d.Spares (d.proseText t) := by
  unfold Draft.proseText
  dsimp only
  split
  · exact spares_leaf hshape _ _
  · exact (spares_openNode hshape _ _).trans (spares_leaf (shape_openNode hshape _ _) _ _)

theorem spares_codeBlockAttribute (d : Draft) (t : Token) : d.Spares (d.codeBlockAttribute t) := by
  unfold Draft.codeBlockAttribute
  split
  · refine Spares.trans ?_ (spares_extend _ _)
    dsimp only
    split
    · exact spares_setCurrent d _
    · split
      · exact (spares_setCurrent d _).trans (spares_of_tree rfl rfl)
      · exact spares_setCurrent d _
  · exact .refl d

theorem spares_codeBlockEnd (d : Draft) (t : Token) : d.Spares (d.codeBlockEnd t) := by
  unfold Draft.codeBlockEnd
  split
  · refine Spares.trans ?_ (spares_close _ _)
    split
    · exact spares_setCurrent d _
    · exact .refl d
  · exact .refl d

theorem spares_build (hshape : d.tree.Shape d.current) (t : Token) : d.Spares (d.build t) := by
  cases hkind : t.kind <;> simp only [Draft.build, hkind]
  case whitespace | unknown | eos => exact .refl d
  -- what is attached, open or not
  case commentStart | codeBlockStart | mustacheStart => exact spares_openNode hshape _ _
  case importStatement | jsxExpression | blockExpression | rawText => exact spares_leaf hshape _ _
  case startTagOpen =>
    exact (spares_leaveAttribute d).trans (spares_openNode (shape_leaveAttribute hshape) _ _)
  case attributeName | directiveName => exact spares_attributeName hshape t _
  case text =>
    split
    · unfold Draft.templateText
      split
      · exact .refl d
      · exact spares_leaf hshape _ _
    · exact spares_proseText hshape t
  -- what the open node is changed by
  case commentContent =>
    refine Spares.trans ?_ (spares_extend _ _)
    split
    · exact spares_setCurrent d _
    · exact .refl d
  case codeBlockContent =>
    unfold Draft.codeBlockContent
    refine Spares.trans ?_ (spares_extend _ _)
    split
    · exact spares_setCurrent d _
    · exact .refl d
  case codeBlockAttribute => exact spares_codeBlockAttribute d t
  case startTag => exact spares_startTag d t
  case attributeDelimiter | attributeMark => exact spares_extend d _
  case attributeValue => exact spares_attributeValue d _
  case mustacheContent => exact spares_mustacheContent d t
  -- what is closed
  case commentEnd =>
    split
    · exact spares_close d _
    · exact .refl d
  case paragraphEnd =>
    unfold Draft.paragraphEnd
    split
    · exact spares_close d _
    · exact .refl d
  case codeBlockEnd => exact spares_codeBlockEnd d t
  case startTagClose => exact spares_startTagClose d t
  case startTagSelfClose => exact spares_startTagSelfClose d t
  case mustacheEnd => exact spares_mustacheEnd d t
  case endTagOpen => exact (spares_leaveAttribute d).trans (spares_of_tree rfl rfl)
  case endTag => exact spares_of_tree rfl rfl
  case endTagClose => exact spares_endTagClose hshape _

/-- **A token** spares what is closed, faulty or not. -/
theorem spares_takeToken (hshape : d.tree.Shape d.current) (t : Token) :
    d.Spares (d.takeToken t) := by
  have hbuild := spares_build hshape t
  unfold Draft.takeToken
  split
  · exact hbuild.trans (spares_of_tree rfl rfl)
  · exact hbuild

end Draft

end HybridMarkup
