/-
Which elements are open, and what became of the others.

The elements on the way from the open node up to the root are the ones that are open
(`Tree.Opened`). All that is ever done to a draft between two tags leaves the elements as they are;
what a tag does to them is one of three things, to open one, to change the innermost one, or to
close it. So one can keep account of the elements: all of them are open, or complete
(`Draft.Accounts`).

An element is complete if it has an end that is written in the text. Where an element or anything
else is closed that is not, there is a report, and reports are never taken back. The second half of
the file is about drafts of which nothing has been reported (`Draft.Silent`).
-/
import HybridMarkup.Proofs.TemplateRun

set_option autoImplicit false

namespace HybridMarkup

open Text

/-- The element that a node is. -/
def NodeData.element? : NodeData → Option Element
  | .element e => some e
  | _ => none

theorem NodeData.element?_eq_some {data : NodeData} {e : Element} :
    data.element? = some e ↔ data = .element e := by
  cases data <;> simp [NodeData.element?]

theorem NodeData.element?_eq_none {data : NodeData} (h : data.kind ≠ .element) :
    data.element? = none := by
  cases data <;> simp_all [NodeData.element?, NodeData.kind]

/-- The start tag of the element ends, and the element is void, closes itself, or is closed by one
of the end tags among the tokens, the brackets of which begin where the element has its end. -/
def Element.Complete (tokens : List Token) (e : Element) : Prop :=
  e.startTagEnd ≠ none ∧
    (isVoid e.tag = true ∨ e.selfClose = true ∨
      ∃ o n, [o, n] <:+: tokens ∧ o.kind = .endTagOpen ∧ n.kind = .endTag ∧
        e.endTagStart = some o.span.start ∧ equalIgnoringCase e.tag n.lexeme = true)

theorem Element.Complete.mono {tokens more : List Token} {e : Element} (h : e.Complete tokens)
    (hmore : tokens <:+: more) : e.Complete more := by
  obtain ⟨hstart, hvoid | hself | ⟨o, n, hpair, hend⟩⟩ := h
  · exact ⟨hstart, .inl hvoid⟩
  · exact ⟨hstart, .inr (.inl hself)⟩
  · exact ⟨hstart, .inr (.inr ⟨o, n, hpair.trans hmore, hend⟩)⟩

/-! ## On the way to the root -/

namespace Tree

variable {t t' : Tree} {i p : Nat} {es : List (Nat × Element)}

/-- The elements on the way from a node up to the root, the innermost first. -/
inductive Opened (t : Tree) : Nat → List (Nat × Element) → Prop where
  | root (data : (t.data root).element? = none) : Opened t root []
  | element {i p : Nat} {e : Element} {es : List (Nat × Element)}
      (data : (t.data i).element? = some e) (parent : t.parent i = some p)
      (outer : Opened t p es) : Opened t i ((i, e) :: es)
  | other {i p : Nat} {es : List (Nat × Element)} (data : (t.data i).element? = none)
      (parent : t.parent i = some p) (outer : Opened t p es) : Opened t i es

/-- The two trees have the same elements, and the parents of the first are those of the second. -/
structure KeepsElements (t t' : Tree) : Prop where
  elements : ∀ j, (t'.data j).element? = (t.data j).element?
  parents : ∀ j p : Nat, t.parent j = some p → t'.parent j = some p

theorem KeepsElements.trans {t'' : Tree} (h : t.KeepsElements t') (h' : t'.KeepsElements t'') :
    t.KeepsElements t'' :=
  ⟨fun j => (h'.elements j).trans (h.elements j), fun j p hp => h'.parents j p (h.parents j p hp)⟩

theorem keepsElements_setSpan (t : Tree) (i : Nat) (span : Span) :
    t.KeepsElements (t.setSpan i span) :=
  ⟨fun _ => by rw [data_setSpan], fun _ _ hp => by rw [parent_setSpan, hp]⟩

theorem keepsElements_setData {data : NodeData} (hold : (t.data i).element? = none)
    (hnew : data.element? = none) : t.KeepsElements (t.setData i data) := by
  refine ⟨fun j => ?_, fun j p hp => by rw [parent_setData, hp]⟩
  rw [data_setData]
  split
  · next heq => rw [hnew, ← heq.1, hold]
  · rfl

theorem keepsElements_sprout {data : NodeData} (hp : p < t.size) (hnew : data.element? = none)
    (span : Span) : t.KeepsElements (t.sprout data span p) := by
  constructor
  · intro j
    rw [data_sprout hp]
    split
    · next heq => rw [hnew, data_of_size_le (Nat.le_of_eq heq.symm)]; rfl
    · rfl
  · intro j q hq
    rw [parent_sprout hp, if_neg (Nat.ne_of_lt (lt_size_of_parent hq)), hq]

theorem Opened.keeps (h : t.Opened i es) (hkeep : t.KeepsElements t') : t'.Opened i es := by
  induction h with
  | root data => exact .root ((hkeep.elements _).trans data)
  | element data parent _ ih =>
    exact .element ((hkeep.elements _).trans data) (hkeep.parents _ _ parent) ih
  | other data parent _ ih =>
    exact .other ((hkeep.elements _).trans data) (hkeep.parents _ _ parent) ih

/-- What becomes of the nodes behind a node is no matter to those above it. -/
theorem Opened.congr (h : t.Opened i es) (hlt : ∀ j p : Nat, t.parent j = some p → p < j)
    (hdata : ∀ j, j ≤ i → t'.data j = t.data j)
    (hparent : ∀ j p : Nat, j ≤ i → t.parent j = some p → t'.parent j = some p) :
    t'.Opened i es := by
  induction h with
  | root data => exact .root (by rw [hdata _ (Nat.le_refl _), data])
  | element data parent _ ih =>
    have hle := Nat.le_of_lt (hlt _ _ parent)
    refine .element (by rw [hdata _ (Nat.le_refl _), data]) (hparent _ _ (Nat.le_refl _) parent) ?_
    exact ih (fun j hj => hdata j (Nat.le_trans hj hle))
      fun j q hj => hparent j q (Nat.le_trans hj hle)
  | other data parent _ ih =>
    have hle := Nat.le_of_lt (hlt _ _ parent)
    refine .other (by rw [hdata _ (Nat.le_refl _), data]) (hparent _ _ (Nat.le_refl _) parent) ?_
    exact ih (fun j hj => hdata j (Nat.le_trans hj hle))
      fun j q hj => hparent j q (Nat.le_trans hj hle)

/-- An element is the innermost one of itself. -/
theorem Opened.exists_outer {e : Element} (h : t.Opened i es)
    (hdata : (t.data i).element? = some e) :
    ∃ outer p, es = (i, e) :: outer ∧ t.parent i = some p ∧ t.Opened p outer := by
  cases h with
  | root data => simp [hdata] at data
  | element data parent outer =>
    rw [hdata, Option.some.injEq] at data
    exact ⟨_, _, by rw [data], parent, outer⟩
  | other data _ _ => simp [hdata] at data

theorem Opened.up (h : t.Opened i es) (hdata : (t.data i).element? = none)
    (hp : t.parent i = some p) (hroot : t.parent Tree.root = none) : t.Opened p es := by
  cases h with
  | root _ => simp [hroot] at hp
  | element data _ _ => simp [hdata] at data
  | other _ parent outer =>
    rw [hp, Option.some.injEq] at parent
    exact parent ▸ outer

theorem Opened.eq_nil (h : t.Opened Tree.root es) (hroot : t.parent Tree.root = none) :
    es = [] := by
  cases h with
  | root _ => rfl
  | element _ parent _ => simp [hroot] at parent
  | other _ parent _ => simp [hroot] at parent

end Tree

/-! ## What is no tag -/

namespace Draft

variable {d d' d'' : Draft} {data : NodeData} {t : Token}

/-- From one draft to the other all elements stay as they are, and those that are open stay open. -/
structure Passes (d d' : Draft) : Prop where
  keeps : d.tree.KeepsElements d'.tree
  opened : ∀ es, d.tree.Opened d.current es → d'.tree.Opened d'.current es

theorem Passes.refl (d : Draft) : d.Passes d := ⟨⟨fun _ => rfl, fun _ _ hp => hp⟩, fun _ h => h⟩

theorem Passes.trans (h : d.Passes d') (h' : d'.Passes d'') : d.Passes d'' :=
  ⟨h.keeps.trans h'.keeps, fun es hes => h'.opened es (h.opened es hes)⟩

/-- What leaves the elements alone, and the open node where it is. -/
theorem passes_of_keeps (hcurrent : d'.current = d.current)
    (hkeep : d.tree.KeepsElements d'.tree) : d.Passes d' :=
  ⟨hkeep, fun _ hes => hcurrent ▸ hes.keeps hkeep⟩

theorem passes_of_tree (htree : d'.tree = d.tree) (hcurrent : d'.current = d.current) :
    d.Passes d' :=
  passes_of_keeps hcurrent (htree ▸ (Passes.refl d).keeps)

theorem passes_setSpan (d : Draft) (i : Nat) (span : Span) :
    d.Passes { d with tree := d.tree.setSpan i span } :=
  passes_of_keeps rfl (Tree.keepsElements_setSpan ..)

theorem passes_extend (d : Draft) (stop : Nat) : d.Passes (d.extend stop) := passes_setSpan ..

theorem passes_setOther (hold : d.currentData.element? = none) (hnew : data.element? = none) :
    d.Passes (d.setCurrent data) :=
  passes_of_keeps rfl (Tree.keepsElements_setData hold hnew)

theorem passes_leaf (hcurrent : d.current < d.tree.size) (hnew : data.element? = none)
    (span : Span) : d.Passes (d.leaf data span) :=
  passes_of_keeps rfl
    ((Tree.keepsElements_sprout hcurrent hnew span).trans (Tree.keepsElements_setSpan ..))

theorem passes_openOther (hcurrent : d.current < d.tree.size) (hnew : data.element? = none)
    (span : Span) : d.Passes (d.openNode data span) := by
  have hleaf := passes_leaf hcurrent hnew span
  obtain ⟨hdata, hparent⟩ := node_leaf data span hcurrent
  refine ⟨hleaf.keeps, fun es hes => ?_⟩
  exact .other (by rw [← hnew]; exact congrArg NodeData.element? hdata) hparent (hleaf.opened es hes)

theorem passes_ascend (hother : d.currentData.element? = none)
    (hroot : d.tree.parent Tree.root = none) : d.Passes d.ascend := by
  unfold Draft.ascend
  split
  · exact .refl d
  · next p hp =>
    have hup : d.Passes { d with current := p } :=
      ⟨(Passes.refl d).keeps, fun _ hes => hes.up hother hp hroot⟩
    exact hup.trans (passes_setSpan ..)

theorem passes_close (hother : d.currentData.element? = none)
    (hroot : d.tree.parent Tree.root = none) (stop : Nat) : d.Passes (d.close stop) := by
  refine (passes_setSpan ..).trans (passes_ascend ?_ ((Tree.parent_setSpan ..).trans hroot))
  exact (congrArg NodeData.element? (Tree.data_setSpan ..)).trans hother

theorem passes_leaveAttribute (hroot : d.tree.parent Tree.root = none) :
    d.Passes d.leaveAttribute := by
  unfold Draft.leaveAttribute
  split
  · next a hdata => exact passes_ascend (congrArg NodeData.element? hdata) hroot
  · next a hdata => exact passes_ascend (congrArg NodeData.element? hdata) hroot
  · exact .refl d

theorem passes_attributeValue (d : Draft) (span : Span) : d.Passes (d.attributeValue span) := by
  unfold Draft.attributeValue
  dsimp only
  split
  · next a hdata =>
    exact (passes_setOther (congrArg NodeData.element? hdata) rfl).trans (passes_extend ..)
  · next a hdata =>
    exact (passes_setOther (congrArg NodeData.element? hdata) rfl).trans (passes_extend ..)
  · exact .refl d

theorem passes_attributeName (hroot : d.tree.parent Tree.root = none)
    (hcurrent : d.leaveAttribute.current < d.leaveAttribute.tree.size)
    (hnew : data.element? = none) : d.Passes (d.attributeName t data) := by
  have hopen := (passes_leaveAttribute hroot).trans (passes_openOther hcurrent hnew t.span)
  unfold Draft.attributeName
  dsimp only
  split
  · exact hopen.trans (passes_of_tree rfl rfl)
  · exact hopen

theorem passes_mustacheContent (d : Draft) (t : Token) : d.Passes (d.mustacheContent t) := by
  unfold Draft.mustacheContent
  refine Passes.trans ?_ (passes_extend ..)
  split
  · next hdata => exact passes_setOther (congrArg NodeData.element? hdata) rfl
  · exact .refl d

theorem passes_mustacheEnd (hroot : d.tree.parent Tree.root = none) :
    d.Passes (d.mustacheEnd t) := by
  unfold Draft.mustacheEnd
  split
  · next hdata =>
    exact (passes_close (congrArg NodeData.element? hdata) hroot _).trans
      (passes_attributeValue ..)
  · exact .refl d

/-- The parent of an attribute is in the tree. -/
theorem leaveAttribute_current_lt (hshape : d.tree.Shape d.current) :
    d.leaveAttribute.current < d.leaveAttribute.tree.size := by
  have hascend : d.ascend.current < d.ascend.tree.size := by
    unfold Draft.ascend
    split
    · exact hshape.edge_lt
    · next p hp =>
      show p < (d.tree.setSpan _ _).size
      rw [Tree.size_setSpan]
      exact Nat.lt_trans (hshape.parent_lt hp) hshape.edge_lt
  unfold Draft.leaveAttribute
  split
  · exact hascend
  · exact hascend
  · exact hshape.edge_lt

/-- The kinds of the tokens in a template that neither begin, nor change, nor end an element. An
end tag ends one with its last bracket. -/
def sparesElements : TokenKind → Bool
  | .whitespace | .text | .rawText | .commentStart | .commentContent | .commentEnd | .endTagOpen
  | .endTag | .attributeName | .directiveName | .attributeDelimiter | .attributeMark
  | .attributeValue | .mustacheStart | .mustacheContent | .mustacheEnd => true
  | _ => false

/-- **What is not an element leaves the elements alone.** -/
theorem passes_build (hshape : d.tree.Shape d.current) (htemplate : d.tree.dialect = .template)
    (hspares : sparesElements t.kind = true) : d.Passes (d.build t) := by
  have hroot := hshape.root
  have hcurrent := hshape.edge_lt
  cases hkind : t.kind <;> simp only [hkind, sparesElements, Bool.false_eq_true] at hspares <;>
    simp only [Draft.build, hkind]
  case whitespace => exact .refl d
  case text =>
    rw [if_pos htemplate]
    unfold Draft.templateText
    split
    · exact .refl d
    · exact passes_leaf hcurrent rfl _
  case rawText => exact passes_leaf hcurrent rfl _
  case commentStart => exact passes_openOther hcurrent rfl _
  case commentContent =>
    refine Passes.trans ?_ (passes_extend ..)
    split
    · next hdata => exact passes_setOther (congrArg NodeData.element? hdata) rfl
    · exact .refl d
  case commentEnd =>
    split
    · next hcomment =>
      have hother : d.currentData.kind ≠ .element := by
        rw [show d.currentData.kind = .comment from hcomment]
        decide
      exact passes_close (NodeData.element?_eq_none hother) hroot _
    · exact .refl d
  case endTagOpen => exact (passes_leaveAttribute hroot).trans (passes_of_tree rfl rfl)
  case endTag => exact passes_of_tree rfl rfl
  case attributeName | directiveName =>
    exact passes_attributeName hroot (leaveAttribute_current_lt hshape) rfl
  case attributeDelimiter | attributeMark => exact passes_extend ..
  case attributeValue => exact passes_attributeValue ..
  case mustacheStart => exact passes_openOther hcurrent rfl _
  case mustacheContent => exact passes_mustacheContent ..
  case mustacheEnd => exact passes_mustacheEnd hroot

end Draft

/-! ## What a tag does -/

namespace Tree

variable {t : Tree} {i : Nat} {es outer : List (Nat × Element)} {e e' : Element} {span : Span}

/-- An element that is opened is the innermost one. -/
theorem Opened.sprout (h : t.Opened i es) (hshape : t.Shape i) :
    (t.sprout (.element e) span i).Opened t.size ((t.size, e) :: es) := by
  have hi := hshape.edge_lt
  refine .element (by rw [data_sprout hi, if_pos rfl]; rfl)
    (by rw [parent_sprout hi, if_pos rfl]) (h.congr (fun j p => hshape.parent_lt) ?_ ?_)
  · intro j hj
    rw [data_sprout hi, if_neg (by omega)]
  · intro j p hj hp
    rw [parent_sprout hi, if_neg (by omega), hp]

/-- The innermost element changes. -/
theorem Opened.setData (h : t.Opened i ((i, e) :: outer)) (hdata : t.data i = .element e)
    (hshape : t.Shape i) (e' : Element) :
    (t.setData i (.element e')).Opened i ((i, e') :: outer) := by
  obtain ⟨_, p, heq, hparent, hup⟩ := h.exists_outer (NodeData.element?_eq_some.2 hdata)
  obtain rfl := (List.cons.inj heq).2
  have hlt := hshape.parent_lt hparent
  refine .element (by rw [data_setData, if_pos ⟨rfl, hshape.edge_lt⟩]; rfl)
    ((parent_setData ..).trans hparent) (hup.congr (fun j p => hshape.parent_lt) ?_ ?_)
  · intro j hj
    rw [data_setData, if_neg fun heq => by omega]
  · intro j p _ hp
    rw [parent_setData, hp]

end Tree

/-! ## The account -/

namespace Draft

variable {d d' : Draft} {ts : List Token} {es outer : List (Nat × Element)} {e e' : Element}
  {data : NodeData} {t : Token} {span : Span}

/-- The elements in `es` are open, the innermost first, and all others are complete. -/
structure Accounts (d : Draft) (ts : List Token) (es : List (Nat × Element)) : Prop where
  opened : d.tree.Opened d.current es
  settled : ∀ i e, (d.tree.data i).element? = some e → (i, e) ∈ es ∨ e.Complete ts

theorem Accounts.mono (h : d.Accounts ts es) (t : Token) : d.Accounts (ts ++ [t]) es :=
  ⟨h.opened, fun i e hdata =>
    (h.settled i e hdata).imp_right fun hc => hc.mono (List.prefix_append ts [t]).isInfix⟩

theorem Accounts.passes (h : d.Accounts ts es) (hp : d.Passes d') : d'.Accounts ts es :=
  ⟨hp.opened es h.opened, fun i e hdata => h.settled i e (hp.keeps.elements i ▸ hdata)⟩

/-- The open element is the innermost of those that are open. -/
theorem exists_outer (h : d.tree.Opened d.current es) (hdata : d.currentData = .element e) :
    ∃ outer, es = (d.current, e) :: outer := by
  obtain ⟨outer, _, rfl, _⟩ := h.exists_outer (NodeData.element?_eq_some.2 hdata)
  exact ⟨outer, rfl⟩

theorem opened_openElement (h : d.tree.Opened d.current es) (hshape : d.tree.Shape d.current) :
    (d.openNode (.element e) span).tree.Opened (d.openNode (.element e) span).current
      ((d.tree.size, e) :: es) :=
  (h.sprout hshape).keeps (Tree.keepsElements_setSpan ..)

theorem opened_setElement (h : d.tree.Opened d.current ((d.current, e) :: outer))
    (hdata : d.currentData = .element e) (hshape : d.tree.Shape d.current) (e' : Element) :
    (d.setCurrent (.element e')).tree.Opened (d.setCurrent (.element e')).current
      ((d.current, e') :: outer) :=
  h.setData hdata hshape e'

/-- Behind the innermost element the next one is the innermost. -/
theorem opened_close (h : d.tree.Opened d.current ((d.current, e) :: outer))
    (hdata : d.currentData = .element e) (stop : Nat) :
    (d.close stop).tree.Opened (d.close stop).current outer := by
  obtain ⟨outer', p, heq, hparent, hup⟩ := h.exists_outer (NodeData.element?_eq_some.2 hdata)
  obtain rfl : outer = outer' := (List.cons.inj heq).2
  have hp : (d.tree.setSpan d.current ⟨(d.tree.span d.current).start,
      max stop (d.tree.span d.current).start⟩).parent d.current = some p :=
    (Tree.parent_setSpan ..).trans hparent
  unfold Draft.close Draft.ascend
  dsimp only
  rw [hp]
  exact (hup.keeps (Tree.keepsElements_setSpan ..)).keeps (Tree.keepsElements_setSpan ..)

theorem data_close (d : Draft) (stop j : Nat) :
    (d.close stop).tree.data j = d.tree.data j := by
  unfold Draft.close Draft.ascend
  dsimp only
  split
  · exact Tree.data_setSpan ..
  · exact (Tree.data_setSpan ..).trans (Tree.data_setSpan ..)

theorem Accounts.openElement (h : d.Accounts ts es) (hshape : d.tree.Shape d.current) :
    (d.openNode (.element e) span).Accounts ts ((d.tree.size, e) :: es) := by
  have hcurrent := hshape.edge_lt
  refine ⟨opened_openElement h.opened hshape, fun j e' hj => ?_⟩
  have hj : (((d.tree.sprout (.element e) span d.current).setSpan _ _).data j).element? = some e' :=
    hj
  rw [Tree.data_setSpan, Tree.data_sprout hcurrent] at hj
  split at hj
  · next hnew =>
    obtain rfl : e = e' := Option.some.inj hj
    exact .inl (by rw [hnew]; exact List.mem_cons_self)
  · exact (h.settled j e' hj).imp_left (List.mem_cons_of_mem _)

/-- The open element changes. -/
theorem Accounts.setElement (h : d.Accounts ts ((d.current, e) :: outer))
    (hdata : d.currentData = .element e) (hshape : d.tree.Shape d.current) (e' : Element) :
    (d.setCurrent (.element e')).Accounts ts ((d.current, e') :: outer) := by
  refine ⟨opened_setElement h.opened hdata hshape e', fun j e'' hj => ?_⟩
  have hj : ((d.tree.setData d.current (.element e')).data j).element? = some e'' := hj
  rw [Tree.data_setData] at hj
  split at hj
  · next hcurrent =>
    obtain rfl : e' = e'' := Option.some.inj hj
    exact .inl (by rw [hcurrent.1]; exact List.mem_cons_self)
  · next hcurrent =>
    rcases h.settled j e'' hj with hmem | hc
    · rcases List.mem_cons.1 hmem with heq | hmem
      · have hj := (Prod.mk.inj heq).1
        exact absurd ⟨hj.symm, hj ▸ hshape.edge_lt⟩ hcurrent
      · exact .inl (List.mem_cons_of_mem _ hmem)
    · exact .inr hc

/-- The open element is closed, and is complete. -/
theorem Accounts.closeElement (h : d.Accounts ts ((d.current, e) :: outer))
    (hdata : d.currentData = .element e) (hc : e.Complete ts) (stop : Nat) :
    (d.close stop).Accounts ts outer := by
  refine ⟨opened_close h.opened hdata stop, fun j e' hj => ?_⟩
  rw [data_close] at hj
  rcases h.settled j e' hj with hmem | hc'
  · rcases List.mem_cons.1 hmem with heq | hmem
    · obtain ⟨rfl, rfl⟩ := Prod.mk.inj heq
      exact .inr hc
    · exact .inl hmem
  · exact .inr hc'

/-- The name of a start tag. -/
theorem Accounts.startTag (h : d.Accounts ts ((d.current, e) :: outer))
    (hdata : d.currentData = .element e) (hshape : d.tree.Shape d.current) :
    (d.startTag t).Accounts ts ((d.current, { e with tag := t.lexeme }) :: outer) := by
  simp only [Draft.startTag, hdata]
  exact (h.setElement hdata hshape _).passes (passes_extend ..)

/-- The end of a start tag. A void element is complete with it. -/
theorem Accounts.startTagClose (h : d.leaveAttribute.Accounts ts es)
    (hdata : d.leaveAttribute.currentData = .element e)
    (hshape : d.leaveAttribute.tree.Shape d.leaveAttribute.current) :
    ∃ outer, es = (d.leaveAttribute.current, e) :: outer ∧
      (d.startTagClose t).Accounts ts (if isVoid e.tag then outer
        else (d.leaveAttribute.current, { e with startTagEnd := some t.span.stop }) :: outer) := by
  obtain ⟨outer, rfl⟩ := exists_outer h.opened hdata
  have hset := h.setElement hdata hshape { e with startTagEnd := some t.span.stop }
  refine ⟨outer, rfl, ?_⟩
  simp only [Draft.startTagClose, hdata]
  split
  · next hvoid =>
    exact hset.closeElement (currentData_setCurrent _ hshape.edge_lt) ⟨by simp, .inl hvoid⟩ _
  · exact hset.passes (passes_extend ..)

/-- The end of a start tag that is an end tag as well. -/
theorem Accounts.startTagSelfClose (h : d.leaveAttribute.Accounts ts es)
    (hdata : d.leaveAttribute.currentData = .element e)
    (hshape : d.leaveAttribute.tree.Shape d.leaveAttribute.current) :
    ∃ outer, es = (d.leaveAttribute.current, e) :: outer ∧
      (d.startTagSelfClose t).Accounts ts outer := by
  obtain ⟨outer, rfl⟩ := exists_outer h.opened hdata
  have hset := h.setElement hdata hshape
    { e with selfClose := true, startTagEnd := some t.span.stop }
  refine ⟨outer, rfl, ?_⟩
  simp only [Draft.startTagSelfClose, hdata]
  exact hset.closeElement (currentData_setCurrent _ hshape.edge_lt) ⟨by simp, .inr (.inl rfl)⟩ _

/-! ## Nothing reported -/

/-- Nothing has been reported. -/
def Silent (d : Draft) : Prop := d.diagnostics.newestFirst = []

/-- What is reported is not taken back. -/
theorem not_silent_push (d : Draft) (x : Diagnostic) :
    ¬ ({ d with diagnostics := d.diagnostics.push x } : Draft).Silent := by
  show (d.diagnostics.push x).newestFirst ≠ []
  unfold Diagnostics.push
  split
  · simp
  · split <;> simp

theorem not_silent_report (d : Draft) (error : ParseError) (span : Span) :
    ¬ (d.report error span).Silent :=
  d.not_silent_push _

theorem Silent.congr (h : d.Silent) (hsame : d'.diagnostics = d.diagnostics) : d'.Silent :=
  (congrArg Diagnostics.newestFirst hsame).trans h

theorem diagnostics_ascend (d : Draft) : d.ascend.diagnostics = d.diagnostics := by
  unfold Draft.ascend
  split <;> rfl

theorem diagnostics_close (d : Draft) (stop : Nat) : (d.close stop).diagnostics = d.diagnostics :=
  diagnostics_ascend _

theorem diagnostics_leaveAttribute (d : Draft) :
    d.leaveAttribute.diagnostics = d.diagnostics := by
  unfold Draft.leaveAttribute
  split
  · exact d.diagnostics_ascend
  · exact d.diagnostics_ascend
  · rfl

theorem diagnostics_leaf (d : Draft) (data : NodeData) (span : Span) :
    (d.leaf data span).diagnostics = d.diagnostics := rfl

theorem diagnostics_templateText (d : Draft) (t : Token) :
    (d.templateText t).diagnostics = d.diagnostics := by
  unfold Draft.templateText
  split <;> rfl

theorem diagnostics_proseText (d : Draft) (t : Token) :
    (d.proseText t).diagnostics = d.diagnostics := by
  unfold Draft.proseText
  refine (diagnostics_leaf _ _ _).trans ?_
  split
  · rfl
  · exact d.diagnostics_leaf .paragraph t.span

theorem diagnostics_attributeValue (d : Draft) (span : Span) :
    (d.attributeValue span).diagnostics = d.diagnostics := by
  unfold Draft.attributeValue
  dsimp only
  split <;> rfl

theorem diagnostics_setEndTagStart (d : Draft) (i start : Nat) :
    (d.setEndTagStart i start).diagnostics = d.diagnostics := by
  unfold Draft.setEndTagStart
  split <;> rfl

theorem diagnostics_supplyEndTagStart (d : Draft) (stop : Nat) :
    (d.supplyEndTagStart stop).diagnostics = d.diagnostics := by
  unfold Draft.supplyEndTagStart
  split <;> rfl

theorem diagnostics_startTagClose (d : Draft) (t : Token) :
    (d.startTagClose t).diagnostics = d.diagnostics := by
  unfold Draft.startTagClose
  dsimp only
  split
  · split
    · exact (diagnostics_close ..).trans d.diagnostics_leaveAttribute
    · exact d.diagnostics_leaveAttribute
  · exact d.diagnostics_leaveAttribute

theorem diagnostics_startTagSelfClose (d : Draft) (t : Token) :
    (d.startTagSelfClose t).diagnostics = d.diagnostics := by
  unfold Draft.startTagSelfClose
  dsimp only
  split
  · exact (diagnostics_close ..).trans d.diagnostics_leaveAttribute
  · exact d.diagnostics_leaveAttribute

theorem diagnostics_mustacheEnd (d : Draft) (t : Token) :
    (d.mustacheEnd t).diagnostics = d.diagnostics := by
  unfold Draft.mustacheEnd
  split
  · exact (diagnostics_attributeValue ..).trans (d.diagnostics_close _)
  · rfl

/-- **Where nothing closed what needs to be closed, there is a report.** -/
theorem Silent.of_closeUnterminated {stop : Nat} (h : (d.closeUnterminated stop).Silent) :
    d.Silent ∧ d.currentKind.isStructural = false := by
  unfold Draft.closeUnterminated at h
  replace h := h.congr (diagnostics_close _ _).symm
  dsimp only at h
  split at h
  · exact absurd h (not_silent_report _ _ _)
  · exact absurd h (not_silent_report _ _ _)
  · split at h
    · exact absurd h (not_silent_report _ _ _)
    · next hkind => exact ⟨h, by simpa [currentKind, Tree.kind, currentData] using hkind⟩

theorem Silent.of_closeDownTo {target start : Nat} (fuel : Nat) :
    ∀ {d : Draft}, (closeDownTo target start fuel d).Silent → d.Silent := by
  induction fuel with
  | zero => exact fun h => h
  | succ fuel ih =>
    intro d h
    unfold Draft.closeDownTo at h
    split at h
    · exact h
    · exact (ih h).of_closeUnterminated.1.congr (d.diagnostics_setEndTagStart _ _).symm

theorem Silent.of_finishIn {stop : Nat} (fuel : Nat) :
    ∀ {d : Draft}, (finishIn fuel stop d).Silent → d.Silent := by
  induction fuel with
  | zero => exact fun h => h
  | succ fuel ih =>
    intro d h
    unfold Draft.finishIn at h
    split at h
    · exact h
    · exact (ih h).of_closeUnterminated.1.congr (d.diagnostics_supplyEndTagStart _).symm

theorem Silent.of_attributeName (h : (d.attributeName t data).Silent) : d.Silent := by
  unfold Draft.attributeName at h
  dsimp only at h
  split at h
  · exact absurd h (not_silent_report _ _ _)
  · exact h.congr d.diagnostics_leaveAttribute.symm

theorem Silent.of_endTagClose {stop : Nat} (h : (d.endTagClose stop).Silent) : d.Silent := by
  unfold Draft.endTagClose at h
  split at h
  · exact h
  · dsimp only at h
    split at h
    · exact absurd h (not_silent_report _ _ _)
    · have hnext : ({ d with endTagName := none } : Draft).Silent :=
        Silent.of_closeDownTo _ ((h.congr (diagnostics_close _ _).symm).congr
          (diagnostics_setEndTagStart _ _ _).symm)
      exact hnext

theorem Silent.of_codeBlockAttribute (h : (d.codeBlockAttribute t).Silent) : d.Silent := by
  unfold Draft.codeBlockAttribute at h
  split at h
  · dsimp only at h
    split at h
    · exact h
    · split at h
      · exact absurd h (not_silent_report _ _ _)
      · exact h
  · exact h

/-- **Reports are not taken back.** -/
theorem Silent.of_build (h : (d.build t).Silent) : d.Silent := by
  cases hkind : t.kind <;> simp only [Draft.build, hkind] at h
  case commentContent =>
    split at h
    · exact h
    · exact h
  case commentEnd =>
    split at h
    · exact h.congr (diagnostics_close _ _).symm
    · exact h
  case text =>
    split at h
    · exact h.congr (d.diagnostics_templateText t).symm
    · exact h.congr (d.diagnostics_proseText t).symm
  case paragraphEnd =>
    unfold Draft.paragraphEnd at h
    split at h
    · exact h.congr (diagnostics_close _ _).symm
    · exact h
  case codeBlockAttribute => exact h.of_codeBlockAttribute
  case codeBlockContent =>
    unfold Draft.codeBlockContent at h
    dsimp only at h
    split at h
    · exact h
    · exact h
  case codeBlockEnd =>
    unfold Draft.codeBlockEnd at h
    split at h
    · replace h := h.congr (diagnostics_close _ _).symm
      split at h
      · exact h
      · exact h
    · exact h
  case startTagOpen | endTagOpen =>
    exact Silent.congr (d := d.leaveAttribute) h d.diagnostics_leaveAttribute.symm
  case startTag =>
    unfold Draft.startTag at h
    dsimp only at h
    split at h
    · exact h
    · exact h
  case startTagClose => exact h.congr (d.diagnostics_startTagClose t).symm
  case startTagSelfClose => exact h.congr (d.diagnostics_startTagSelfClose t).symm
  case endTagClose => exact h.of_endTagClose
  case attributeName | directiveName => exact h.of_attributeName
  case attributeValue => exact h.congr (d.diagnostics_attributeValue _).symm
  case mustacheContent =>
    unfold Draft.mustacheContent at h
    dsimp only at h
    split at h
    · exact h
    · exact h
  case mustacheEnd => exact h.congr (d.diagnostics_mustacheEnd t).symm
  -- what is attached or opened, and what only widens a node
  all_goals exact h

/-- A token that is taken in without a report has no fault. -/
theorem Silent.of_takeToken (h : (d.takeToken t).Silent) :
    t.error = none ∧ d.takeToken t = d.build t ∧ d.Silent := by
  unfold Draft.takeToken at h ⊢
  cases herror : t.error with
  | none =>
    rw [herror] at h
    exact ⟨rfl, rfl, h.of_build⟩
  | some error =>
    rw [herror] at h
    exact absurd h (not_silent_push _ _)

/-- The parent of a node that is closed is open. -/
theorem current_closeUnterminated {p stop : Nat} (hp : d.tree.parent d.current = some p) :
    (d.closeUnterminated stop).current = p := by
  have hclose {d : Draft} (hp : d.tree.parent d.current = some p) :
      (d.close stop).current = p := by
    unfold Draft.close Draft.ascend
    dsimp only
    rw [Tree.parent_setSpan, hp]
    rfl
  unfold Draft.closeUnterminated
  refine hclose ?_
  split
  · exact (Tree.parent_setData ..).trans hp
  · exact hp
  · split
    · exact hp
    · exact hp

/-! ### The end of an end tag -/

theorem ancestors_root {tree : Tree} (hroot : tree.parent Tree.root = none) :
    tree.ancestors Tree.root = [] := by
  unfold Tree.ancestors Tree.ancestorsIn
  split
  · rfl
  · rw [hroot]

theorem setEndTagStart_current {start : Nat} (hdata : d.currentData = .element e) :
    d.setEndTagStart d.current start
      = d.setCurrent (.element { e with endTagStart := some start }) := by
  simp only [setEndTagStart, show d.tree.data d.current = .element e from hdata]
  rfl

/-- Unless it starts with the node that is to be closed, closing reports an element. -/
theorem Silent.eq_target {target start fuel : Nat}
    (h : (closeDownTo target start (fuel + 1) d).Silent) (hdata : d.currentData = .element e)
    (hcurrent : d.current < d.tree.size) : d.current = target := by
  unfold closeDownTo at h
  split at h
  · next heq => exact heq
  · have hkind := (Silent.of_closeDownTo fuel h).of_closeUnterminated.2
    rw [setEndTagStart_current hdata] at hkind
    have hset := currentData_setCurrent (.element { e with endTagStart := some start }) hcurrent
    rw [show (d.setCurrent _).currentKind = _ from congrArg NodeData.kind hset] at hkind
    simp [NodeData.kind, NodeKind.isStructural] at hkind

/-- An end tag that finds the open element has its name closes it and nothing else. -/
theorem endTagClose_of_current {name : Text} {stop : Nat} (hname : d.endTagName = some name)
    (hdata : d.currentData = .element e) (hsame : equalIgnoringCase e.tag name = true)
    (hshape : d.tree.Shape d.current) :
    d.endTagClose stop = (({ d with endTagName := none } : Draft).setCurrent
      (.element { e with endTagStart := some d.endTagStart })).close stop := by
  obtain ⟨fuel, hfuel⟩ : ∃ fuel, d.tree.size = fuel + 1 :=
    ⟨d.tree.size - 1, by have := hshape.edge_lt; omega⟩
  have hdata' : d.tree.data d.current = .element e := hdata
  have hfind : ({ d with endTagName := none } : Draft).openElement? name = some d.current := by
    simp only [openElement?, List.find?_cons, hdata', hsame]
  have hstays : closeDownTo d.current d.endTagStart d.tree.size
      ({ d with endTagName := none } : Draft) = { d with endTagName := none } := by
    rw [hfuel, closeDownTo, if_pos rfl]
  simp only [endTagClose, hname, hfind, hstays]
  rw [setEndTagStart_current (d := { d with endTagName := none }) hdata]

/-- **An end tag that is not reported** closes the innermost element, which has its name. -/
theorem Silent.endTagClose {name : Text} {stop : Nat} (h : (d.endTagClose stop).Silent)
    (hname : d.endTagName = some name) (hshape : d.tree.Shape d.current)
    (hnested : d.current = Tree.root ∨ ∃ e, d.currentData = .element e) :
    ∃ e, d.currentData = .element e ∧ equalIgnoringCase e.tag name = true ∧
      d.endTagClose stop = (({ d with endTagName := none } : Draft).setCurrent
        (.element { e with endTagStart := some d.endTagStart })).close stop := by
  have hclose := h
  unfold Draft.endTagClose at hclose
  simp only [hname] at hclose
  cases htarget : ({ d with endTagName := none } : Draft).openElement? name with
  | none =>
    simp only [htarget] at hclose
    exact absurd hclose (not_silent_report _ _ _)
  | some target =>
    simp only [htarget] at hclose
    have hmem := List.mem_of_find?_eq_some htarget
    have hfound := List.find?_some htarget
    have hcurrent : d.current = target := by
      rcases hnested with hroot | ⟨e, hdata⟩
      · have hmem : target ∈ d.current :: d.tree.ancestors d.current := hmem
        rw [hroot, ancestors_root hshape.root, List.mem_singleton] at hmem
        rw [hroot, hmem]
      · obtain ⟨fuel, hfuel⟩ : ∃ fuel, d.tree.size = fuel + 1 :=
          ⟨d.tree.size - 1, by have := hshape.edge_lt; omega⟩
        rw [hfuel] at hclose
        have hclosed := (hclose.congr (diagnostics_close _ _).symm).congr
          (diagnostics_setEndTagStart _ _ _).symm
        exact hclosed.eq_target (d := { d with endTagName := none }) hdata hshape.edge_lt
    subst hcurrent
    split at hfound
    · next e hdata =>
      exact ⟨e, hdata, hfound, endTagClose_of_current hname hdata hfound hshape⟩
    · simp at hfound

/-- An element that an end tag closes is complete. -/
theorem Accounts.endTagClose {stop : Nat} {o n : Token} (h : d.Accounts ts es)
    (hsilent : (d.endTagClose stop).Silent) (hname : d.endTagName = some n.lexeme)
    (hshape : d.tree.Shape d.current)
    (hnested : d.current = Tree.root ∨ ∃ e, d.currentData = .element e)
    (hbegan : ∀ x ∈ es, x.2.startTagEnd ≠ none) (hpair : [o, n] <:+: ts)
    (hopen : o.kind = .endTagOpen) (hnamed : n.kind = .endTag)
    (hstart : d.endTagStart = o.span.start) :
    ∃ i e outer, es = (i, e) :: outer ∧ equalIgnoringCase e.tag n.lexeme = true ∧
      (d.endTagClose stop).Accounts ts outer := by
  obtain ⟨e, hdata, hsame, hclose⟩ := hsilent.endTagClose hname hshape hnested
  have h : ({ d with endTagName := none } : Draft).Accounts ts es := ⟨h.opened, h.settled⟩
  obtain ⟨outer, rfl⟩ := exists_outer h.opened hdata
  have hset := h.setElement hdata hshape { e with endTagStart := some d.endTagStart }
  refine ⟨d.current, e, outer, rfl, hsame, ?_⟩
  rw [hclose]
  refine hset.closeElement (currentData_setCurrent _ hshape.edge_lt) ⟨?_, .inr (.inr ?_)⟩ _
  · exact hbegan _ List.mem_cons_self
  · exact ⟨o, n, hpair, hopen, hnamed, congrArg some hstart, hsame⟩

section Finish

variable {α : Type} {g : Gather α} {dialect : Dialect} {text : Text} {pos : Nat}
  {path : List NodeKind} {xs : List α}

theorem Stands.silent_finishIn {stop : Nat} (hstop : isBoundary stop text = true) (fuel : Nat) :
    ∀ {path : List NodeKind} {d : Draft}, d.Stands g dialect text pos path xs → d.current < fuel →
      (Draft.finishIn fuel stop d).Silent → ∀ k ∈ path, k.isStructural = false := by
  induction fuel with
  | zero => exact fun _ hfuel => absurd hfuel (Nat.not_lt_zero _)
  | succ fuel ih =>
    intro path d h hfuel hsilent
    unfold Draft.finishIn at hsilent
    split at hsilent
    · next hroot =>
      have hchain := h.chain
      rw [hroot] at hchain
      cases hchain with
      | root _ => exact fun k hk => by rw [List.mem_singleton.1 hk]; rfl
      | under _ _ parent _ => simp [h.shape.root] at parent
    · next hroot =>
      obtain ⟨k, k', path, rfl⟩ := h.chain.of_ne_root hroot
      have hsupply := h.supplyEndTagStart stop
      obtain ⟨p, hparent, _⟩ := hsupply.chain.up
      have hlt : p < (d.supplyEndTagStart stop).current := hsupply.shape.parent_lt hparent
      have hsame : (d.supplyEndTagStart stop).current = d.current := by
        unfold Draft.supplyEndTagStart
        split <;> rfl
      have hkind := (Silent.of_finishIn fuel hsilent).of_closeUnterminated.2
      have hfuel : ((d.supplyEndTagStart stop).closeUnterminated stop).current < fuel := by
        rw [current_closeUnterminated hparent]
        rw [hsame] at hlt
        exact Nat.lt_of_lt_of_le hlt (Nat.le_of_lt_succ hfuel)
      have houter := ih (hsupply.closeUnterminated hstop) hfuel hsilent
      intro k₀ hk₀
      rcases List.mem_cons.1 hk₀ with rfl | hk₀
      · rw [← hsupply.kind_eq, hkind]
      · exact houter k₀ hk₀

/-- **Where a text ends without a report**, nothing is open that needs to be closed. -/
theorem Stands.silent_finish (h : d.Stands g dialect text pos path xs)
    (hsilent : d.finish.Silent) : ∀ k ∈ path, k.isStructural = false := by
  refine h.silent_finishIn ?_ d.tree.size h.current_lt hsilent
  rw [h.text_eq]
  exact isBoundary_size text

end Finish

/-- Where the root is the open node there is nothing to close. -/
theorem finish_of_root (h : d.current = Tree.root) : d.finish = d := by
  unfold Draft.finish
  cases d.tree.size with
  | zero => rfl
  | succ n => rw [finishIn, if_pos h]

theorem Silent.of_foldl (ts : List Token) :
    ∀ {d : Draft}, (ts.foldl takeToken d).Silent → d.Silent := by
  induction ts with
  | nil => exact fun h => h
  | cons t ts ih => exact fun h => (ih h).of_takeToken.2.2

end Draft

end HybridMarkup
