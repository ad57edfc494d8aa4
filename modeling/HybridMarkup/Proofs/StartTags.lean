/-
Start tags, and where they end.

An element is opened by the first bracket of its start tag, and for a while nothing is known of it
but that. Its name comes next, then its attributes, and in the end the place where the start tag
ends. Only of the innermost element this place may be unknown, and only while the scanner is in a
start tag (`TemplateArtifact.Tagged`); so when something has to be closed that nothing in the text
closes, there is no start tag for which an end would have to be made up.

It follows that the ends of start tags are known as soon as they are read, and do not change: a
token ends the start tag of one element, or it leaves the ends of all start tags as they are
(`TemplateArtifact.Tagged.step`).
-/
import HybridMarkup.Proofs.ClosedNodes
import HybridMarkup.Proofs.Lockstep

set_option autoImplicit false

namespace HybridMarkup

open Text

/-- The name of an element and the end of its start tag, if that has one. -/
def NodeData.startTag? (data : NodeData) : Option (Text × Nat) :=
  data.element?.bind fun e => e.startTagEnd.map fun stop => (e.tag, stop)

namespace Tree

variable {t t' t'' : Tree} {i p : Nat}

/-- Every node has the same children, and they are of the same kinds. -/
structure KeepsChildren (t t' : Tree) : Prop where
  children : ∀ j, t'.children j = t.children j
  kinds : ∀ j, t'.kind j = t.kind j

theorem KeepsChildren.refl (t : Tree) : t.KeepsChildren t := ⟨fun _ => rfl, fun _ => rfl⟩

theorem KeepsChildren.trans (h : t.KeepsChildren t') (h' : t'.KeepsChildren t'') :
    t.KeepsChildren t'' :=
  ⟨fun j => (h'.children j).trans (h.children j), fun j => (h'.kinds j).trans (h.kinds j)⟩

theorem keepsChildren_setSpan (t : Tree) (i : Nat) (span : Span) :
    t.KeepsChildren (t.setSpan i span) :=
  ⟨fun _ => children_setSpan .., fun _ => congrArg NodeData.kind (data_setSpan ..)⟩

theorem keepsChildren_setData {data : NodeData} (hkind : data.kind = t.kind i) :
    t.KeepsChildren (t.setData i data) := by
  refine ⟨fun _ => children_setData .., fun j => ?_⟩
  rw [kind, data_setData]
  split
  · next heq => rw [hkind, heq.1]
  · rfl

/-- The children of the node are attributes and directives. -/
def HasOnlyAttributes (t : Tree) (i : Nat) : Prop :=
  ∀ j ∈ t.children i, t.kind j = .attr ∨ t.kind j = .directive

theorem HasOnlyAttributes.congr (h : t.HasOnlyAttributes i) (hkeep : t.KeepsChildren t') :
    t'.HasOnlyAttributes i := by
  intro j hj
  rw [hkeep.children] at hj
  rw [hkeep.kinds]
  exact h j hj

theorem HasOnlyAttributes.sprout {data : NodeData} {span : Span} (h : t.HasOnlyAttributes i)
    (hshape : t.Shape p)
    (hnew : i = p → data.kind = .attr ∨ data.kind = .directive) (hi : i < t.size) :
    (t.sprout data span p).HasOnlyAttributes i := by
  have hp := hshape.edge_lt
  have hkind (j : Nat) : (t.sprout data span p).kind j
      = if j = t.size then data.kind else t.kind j := by
    rw [kind, data_sprout hp]
    split <;> rfl
  have hold (j : Nat) (hj : j ∈ t.children i) :
      (t.sprout data span p).kind j = .attr ∨ (t.sprout data span p).kind j = .directive := by
    have hlt : j < t.size := by
      rw [hshape.listed i hi] at hj
      exact List.mem_range.1 (List.mem_filter.1 hj).1
    rw [hkind, if_neg (Nat.ne_of_lt hlt)]
    exact h j hj
  intro j hj
  rw [children_sprout hp, if_neg (Nat.ne_of_lt hi)] at hj
  split at hj
  · next heq =>
    rcases List.mem_append.1 hj with hj | hj
    · exact hold j (heq ▸ hj)
    · rw [hkind, if_pos (List.mem_singleton.1 hj)]
      exact hnew heq
  · exact hold j hj

end Tree

namespace Draft

variable {d d' d'' : Draft} {t : Token} {e e' : Element} {i : Nat} {ts : List Token}

/-! ## What keeps children -/

theorem keepsChildren_ascend (d : Draft) : d.tree.KeepsChildren d.ascend.tree := by
  unfold Draft.ascend
  split
  · exact .refl _
  · exact Tree.keepsChildren_setSpan ..

theorem keepsChildren_close (d : Draft) (stop : Nat) :
    d.tree.KeepsChildren (d.close stop).tree := by
  have hspan := Tree.keepsChildren_setSpan d.tree d.current
    ⟨(d.tree.span d.current).start, max stop (d.tree.span d.current).start⟩
  exact hspan.trans (keepsChildren_ascend { d with tree := d.tree.setSpan d.current _ })

theorem keepsChildren_leaveAttribute (d : Draft) :
    d.tree.KeepsChildren d.leaveAttribute.tree := by
  unfold Draft.leaveAttribute
  split
  · exact keepsChildren_ascend d
  · exact keepsChildren_ascend d
  · exact .refl _

theorem keepsChildren_setCurrent (data : NodeData) (hkind : data.kind = d.currentData.kind) :
    d.tree.KeepsChildren (d.setCurrent data).tree :=
  Tree.keepsChildren_setData hkind

theorem keepsChildren_extend (d : Draft) (stop : Nat) :
    d.tree.KeepsChildren (d.extend stop).tree :=
  Tree.keepsChildren_setSpan ..

theorem keepsChildren_attributeValue (d : Draft) (span : Span) :
    d.tree.KeepsChildren (d.attributeValue span).tree := by
  unfold Draft.attributeValue
  dsimp only
  split
  · next a hdata =>
    exact (keepsChildren_setCurrent _ (by rw [hdata]; rfl)).trans (keepsChildren_extend ..)
  · next a hdata =>
    exact (keepsChildren_setCurrent _ (by rw [hdata]; rfl)).trans (keepsChildren_extend ..)
  · exact .refl _

theorem keepsChildren_mustacheContent (d : Draft) (t : Token) :
    d.tree.KeepsChildren (d.mustacheContent t).tree := by
  unfold Draft.mustacheContent
  refine Tree.KeepsChildren.trans ?_ (keepsChildren_extend ..)
  split
  · next hdata => exact keepsChildren_setCurrent _ (by rw [hdata]; rfl)
  · exact .refl _

theorem keepsChildren_mustacheEnd (d : Draft) (t : Token) :
    d.tree.KeepsChildren (d.mustacheEnd t).tree := by
  unfold Draft.mustacheEnd
  split
  · exact (keepsChildren_close ..).trans (keepsChildren_attributeValue ..)
  · exact .refl _

/-! ## The ends of start tags -/

/-- The ends of all start tags are the same. -/
def KeepsStarts (d d' : Draft) : Prop :=
  ∀ j, (d'.tree.data j).startTag? = (d.tree.data j).startTag?

theorem KeepsStarts.refl (d : Draft) : d.KeepsStarts d := fun _ => rfl

theorem KeepsStarts.trans (h : d.KeepsStarts d') (h' : d'.KeepsStarts d'') : d.KeepsStarts d'' :=
  fun j => (h' j).trans (h j)

theorem Passes.keepsStarts (h : d.Passes d') : d.KeepsStarts d' :=
  fun j => congrArg (Option.bind · _) (h.keeps.elements j)

theorem keepsStarts_close (d : Draft) (stop : Nat) : d.KeepsStarts (d.close stop) :=
  fun j => congrArg NodeData.startTag? (d.data_close stop j)

/-- What else changes about an element is no matter. -/
theorem keepsStarts_setCurrent (e' : Element) (hdata : d.currentData = .element e)
    (hsame : (NodeData.element e').startTag? = (NodeData.element e).startTag?) :
    d.KeepsStarts (d.setCurrent (.element e')) := by
  intro j
  show ((d.tree.setData d.current (.element e')).data j).startTag? = _
  rw [Tree.data_setData]
  split
  · next heq => rw [hsame, ← heq.1, ← hdata]; rfl
  · rfl

/-- The start tags of all open elements have ended. -/
structure Begun (d : Draft) : Prop where
  shape : d.tree.Shape d.current
  opened : ∃ es, d.tree.Opened d.current es ∧ ∀ x ∈ es, x.2.startTagEnd ≠ none

theorem Begun.passes (h : d.Begun) (hp : d.Passes d') (hshape : d'.tree.Shape d'.current) :
    d'.Begun := by
  obtain ⟨es, hes, hall⟩ := h.opened
  exact ⟨hshape, es, hp.opened es hes, hall⟩

theorem Begun.of_tree (h : d.Begun) (htree : d'.tree = d.tree) (hcurrent : d'.current = d.current) :
    d'.Begun :=
  h.passes (passes_of_tree htree hcurrent) (by rw [htree, hcurrent]; exact h.shape)

theorem Begun.startTagEnd (h : d.Begun) (hdata : d.currentData = .element e) :
    e.startTagEnd ≠ none := by
  obtain ⟨es, hes, hall⟩ := h.opened
  obtain ⟨outer, rfl⟩ := exists_outer hes hdata
  exact hall _ List.mem_cons_self

theorem Begun.setElement (h : d.Begun) (hdata : d.currentData = .element e)
    (hbegun : e'.startTagEnd ≠ none) : (d.setCurrent (.element e')).Begun := by
  obtain ⟨es, hes, hall⟩ := h.opened
  obtain ⟨outer, rfl⟩ := exists_outer hes hdata
  refine ⟨shape_setCurrent h.shape _, _, opened_setElement hes hdata h.shape e', fun x hx => ?_⟩
  rcases List.mem_cons.1 hx with rfl | hx
  · exact hbegun
  · exact hall x (List.mem_cons_of_mem _ hx)

theorem Begun.close (h : d.Begun) (stop : Nat) : (d.close stop).Begun := by
  have hshape := shape_close h.shape stop
  obtain ⟨es, hes, hall⟩ := h.opened
  cases hdata : d.currentData.element? with
  | none => exact h.passes (passes_close hdata h.shape.root stop) hshape
  | some e =>
    have hdata := NodeData.element?_eq_some.1 hdata
    obtain ⟨outer, rfl⟩ := exists_outer hes hdata
    exact ⟨hshape, outer, opened_close hes hdata stop,
      fun x hx => hall x (List.mem_cons_of_mem _ hx)⟩

/-! ### Closing what nothing closed -/

/-- Where the start tags of all open elements have ended they still have afterwards, and the ends
are the same. -/
def Closes (d d' : Draft) : Prop := d.Begun → d'.Begun ∧ d.KeepsStarts d'

theorem Closes.refl (d : Draft) : d.Closes d := fun h => ⟨h, .refl d⟩

theorem Closes.trans (h : d.Closes d') (h' : d'.Closes d'') : d.Closes d'' := fun hbegun =>
  have hmid := h hbegun
  ⟨(h' hmid.1).1, hmid.2.trans (h' hmid.1).2⟩

theorem closes_of_tree (htree : d'.tree = d.tree) (hcurrent : d'.current = d.current) :
    d.Closes d' :=
  fun h => ⟨h.of_tree htree hcurrent, (passes_of_tree htree hcurrent).keepsStarts⟩

theorem closes_close (d : Draft) (stop : Nat) : d.Closes (d.close stop) :=
  fun h => ⟨h.close stop, keepsStarts_close d stop⟩

theorem closes_setElement (e' : Element) (hdata : d.currentData = .element e)
    (htag : e'.tag = e.tag) (hstart : e.startTagEnd ≠ none → e'.startTagEnd = e.startTagEnd) :
    d.Closes (d.setCurrent (.element e')) := by
  intro h
  have hbegun := h.startTagEnd hdata
  have hsame := hstart hbegun
  refine ⟨h.setElement hdata (hsame ▸ hbegun), keepsStarts_setCurrent _ hdata ?_⟩
  simp only [NodeData.startTag?, NodeData.element?, Option.bind_some, htag, hsame]

theorem closes_setEndTagStart (d : Draft) (start : Nat) :
    d.Closes (d.setEndTagStart d.current start) := by
  cases hdata : d.currentData with
  | element e =>
    rw [setEndTagStart_current hdata]
    exact closes_setElement _ hdata rfl fun _ => rfl
  | _ =>
    simp only [setEndTagStart, show d.tree.data d.current = _ from hdata]
    exact .refl d

theorem closes_supplyEndTagStart (d : Draft) (stop : Nat) :
    d.Closes (d.supplyEndTagStart stop) := by
  unfold Draft.supplyEndTagStart
  split
  · next e hdata => exact closes_setElement _ hdata rfl fun _ => rfl
  · exact .refl d

theorem closes_closeUnterminated (d : Draft) (stop : Nat) :
    d.Closes (d.closeUnterminated stop) := by
  obtain ⟨d', hclose, hcurrent, ⟨e, hdata, htree⟩ | ⟨_, htree⟩⟩ := d.exists_closeUnterminated stop
  · rw [hclose]
    refine Closes.trans ?_ (closes_close _ _)
    refine (closes_setElement { e with startTagEnd := some (e.startTagEnd.getD stop) }
      hdata rfl fun hbegun => ?_).trans (closes_of_tree htree hcurrent)
    -- an end is made up for an element that has none
    obtain ⟨p, hp⟩ := Option.ne_none_iff_exists'.1 hbegun
    simp [hp]
  · rw [hclose]
    exact (closes_of_tree htree hcurrent).trans (closes_close _ _)

theorem closes_closeDownTo (target start fuel : Nat) :
    ∀ d : Draft, d.Closes (closeDownTo target start fuel d) := by
  induction fuel with
  | zero => exact .refl
  | succ fuel ih =>
    intro d
    unfold closeDownTo
    split
    · exact .refl d
    · exact ((closes_setEndTagStart d start).trans (closes_closeUnterminated _ _)).trans (ih _)

/-- **An end tag** changes no end of a start tag, whatever has to be closed with its element. -/
theorem closes_endTagClose (d : Draft) (stop : Nat) : d.Closes (d.endTagClose stop) := by
  intro hbegun
  have hshape := hbegun.shape
  revert hbegun
  show d.Closes _
  unfold Draft.endTagClose
  split
  · exact .refl d
  · next name _ =>
    have hnext : d.Closes { d with endTagName := none } := closes_of_tree rfl rfl
    dsimp only
    split
    · exact hnext.trans (closes_of_tree rfl rfl)
    · next target hfind =>
      have hcurrent := current_closeDownTo_of_openElement hshape hfind
      refine (hnext.trans (closes_closeDownTo target d.endTagStart d.tree.size _)).trans
        (Closes.trans ?_ (closes_close _ _))
      have hset := closes_setEndTagStart
        (closeDownTo target d.endTagStart d.tree.size { d with endTagName := none }) d.endTagStart
      rwa [hcurrent] at hset

theorem closes_finishIn (stop fuel : Nat) : ∀ d : Draft, d.Closes (finishIn fuel stop d) := by
  induction fuel with
  | zero => exact .refl
  | succ fuel ih =>
    intro d
    unfold finishIn
    split
    · exact .refl d
    · exact ((closes_supplyEndTagStart d stop).trans (closes_closeUnterminated _ _)).trans (ih _)

/-- At the end of the text a start tag may have to end there. -/
theorem startTag?_closeUnterminated (d : Draft) (stop j : Nat) :
    ((d.closeUnterminated stop).tree.data j).startTag? = (d.tree.data j).startTag? ∨
      ∃ tag, ((d.closeUnterminated stop).tree.data j).startTag? = some (tag, stop) := by
  obtain ⟨d', hclose, _, ⟨e, hdata, htree⟩ | ⟨_, htree⟩⟩ := d.exists_closeUnterminated stop
  · rw [hclose, keepsStarts_close d' stop j, htree, Tree.data_setData]
    split
    · next heq =>
      have hj : d.tree.data j = .element e := heq.1 ▸ hdata
      rw [hj]
      cases hend : e.startTagEnd with
      | none => exact .inr ⟨e.tag, by simp [NodeData.startTag?, NodeData.element?]⟩
      | some p => exact .inl (by simp [NodeData.startTag?, NodeData.element?, hend])
    · exact .inl rfl
  · rw [hclose, keepsStarts_close d' stop j, htree]
    exact .inl rfl

theorem keepsStarts_supplyEndTagStart (d : Draft) (stop : Nat) :
    d.KeepsStarts (d.supplyEndTagStart stop) := by
  unfold Draft.supplyEndTagStart
  split
  · next e hdata => exact keepsStarts_setCurrent _ hdata rfl
  · exact .refl d

theorem startTag?_finishIn (stop fuel j : Nat) : ∀ d : Draft,
    ((finishIn fuel stop d).tree.data j).startTag? = (d.tree.data j).startTag? ∨
      ∃ tag, ((finishIn fuel stop d).tree.data j).startTag? = some (tag, stop) := by
  induction fuel with
  | zero => exact fun d => .inl rfl
  | succ fuel ih =>
    intro d
    unfold finishIn
    split
    · exact .inl rfl
    · have hsupply := keepsStarts_supplyEndTagStart d stop j
      rcases ih ((d.supplyEndTagStart stop).closeUnterminated stop) with hrest | hrest
      · rw [hrest, ← hsupply]
        exact startTag?_closeUnterminated (d.supplyEndTagStart stop) stop j
      · exact .inr hrest

end Draft

/-! ## The context and the open start tag -/

/-- Whether a start tag is being read. -/
def Memory.inStartTag (m : Memory) : Bool :=
  match m.state with
  | .startTagName | .startTag | .attributeNamed | .beforeValue | .value => true
  | .mustache => m.returnState == .value
  | _ => false

theorem Memory.inStartTag_goto_bodyState (m : Memory) (tag : Text) :
    (m.goto (bodyState tag)).inStartTag = false := by
  rcases TemplateArtifact.bodyState_cases tag with hbody | hbody | hbody <;>
    simp [Memory.inStartTag, Memory.goto, hbody]

theorem Memory.Turns.inStartTag {m m' : Memory} {u : Text} (h : m.Turns u m') :
    m'.inStartTag = m.inStartTag := by
  cases h with
  | noBody state => rcases state with state | state <;> simp [Memory.inStartTag, goto, state]
  | noValue state | noQuote state | noStartName state | noEndName state =>
    simp [Memory.inStartTag, goto, state]
  | valueEnds state _ => simp [Memory.inStartTag, goto, state]

namespace Tree

variable {t : Tree} {i j : Nat} {es : List (Nat × Element)} {e : Element}

theorem Opened.element_of_mem (h : t.Opened j es) (hmem : (i, e) ∈ es) :
    (t.data i).element? = some e := by
  induction h with
  | root _ => exact absurd hmem List.not_mem_nil
  | element data _ _ ih =>
    rcases List.mem_cons.1 hmem with heq | hmem
    · obtain ⟨rfl, rfl⟩ := Prod.mk.inj heq
      exact data
    · exact ih hmem
  | other _ _ _ ih => exact ih hmem

theorem lt_size_of_element (h : (t.data i).element? = some e) : i < t.size :=
  lt_size_of_data fun hroot => by simp [hroot, NodeData.element?] at h

end Tree

namespace Draft

variable {d d' : Draft} {ts : List Token} {pos pos' : Nat} {i : Nat} {e : Element}
  {outer : List (Nat × Element)} {t : Token}

/-- A start tag is open, that of the element `i`. It has nothing but attributes so far, and every
start tag that has ended did so in front of `pos`. -/
structure AmidStartTag (d : Draft) (ts : List Token) (pos i : Nat) (e : Element)
    (outer : List (Nat × Element)) : Prop where
  opened : d.tree.Opened d.current ((i, e) :: outer)
  begun : ∀ x ∈ outer, x.2.startTagEnd ≠ none
  unbegun : e.startTagEnd = none
  unended : e.endTagStart = none
  attributes : d.tree.HasOnlyAttributes i
  later : ∀ c ∈ ts, c.kind = .startTagClose → c.span.stop < pos

/-- Only in a start tag there is an open element the start tag of which has not ended. -/
def Tagged (m : Memory) (pos : Nat) (d : Draft) (ts : List Token) : Prop :=
  if m.inStartTag = true then ∃ i e outer, d.AmidStartTag ts pos i e outer else d.Begun

theorem Tagged.of_tree {m : Memory} (h : d.Tagged m pos ts) (htree : d'.tree = d.tree)
    (hcurrent : d'.current = d.current) : d'.Tagged m pos ts := by
  unfold Tagged at h ⊢
  split
  · next hin =>
    rw [if_pos hin] at h
    obtain ⟨i, e, outer, h⟩ := h
    exact ⟨i, e, outer, by rw [htree, hcurrent]; exact h.opened, h.begun, h.unbegun, h.unended,
      htree ▸ h.attributes, h.later⟩
  · next hin =>
    rw [if_neg hin] at h
    exact h.of_tree htree hcurrent

theorem tagged_start (text : Text) : (Draft.start .template text).Tagged {} 0 [] :=
  (⟨Tree.shape_start .template text, [], .root rfl, fun _ hx => absurd hx List.not_mem_nil⟩ :
    (Draft.start .template text).Begun)

/-- What follows the token stays in the start tag. -/
theorem AmidStartTag.passes (h : d.AmidStartTag ts pos i e outer) (hp : d.Passes d')
    (hattributes : d'.tree.HasOnlyAttributes i) (hpos : pos ≤ pos') (ht : t.kind ≠ .startTagClose) :
    d'.AmidStartTag (ts ++ [t]) pos' i e outer := by
  refine ⟨hp.opened _ h.opened, h.begun, h.unbegun, h.unended, hattributes, fun c hc hkind => ?_⟩
  rcases List.mem_append.1 hc with hc | hc
  · exact Nat.lt_of_lt_of_le (h.later c hc hkind) hpos
  · rw [List.mem_singleton.1 hc] at hkind
    exact absurd hkind ht

/-- The element is the one to which its attributes lead back. -/
theorem AmidStartTag.leaveAttribute (h : d.AmidStartTag ts pos i e outer)
    (hroot : d.tree.parent Tree.root = none) (htag : d.InStartTag) :
    d.leaveAttribute.current = i ∧ d.leaveAttribute.currentData = .element e ∧
      d.leaveAttribute.tree.Opened d.leaveAttribute.current
        ((d.leaveAttribute.current, e) :: outer) := by
  have hopened := (passes_leaveAttribute hroot).opened _ h.opened
  obtain ⟨e', hdata⟩ := htag.exists_element
  obtain ⟨outer', heq⟩ := exists_outer hopened hdata
  obtain ⟨hhead, rfl⟩ := List.cons.inj heq
  obtain ⟨rfl, rfl⟩ := Prod.mk.inj hhead
  exact ⟨rfl, hdata, hopened⟩

theorem attributes_attributeName {data : NodeData}
    (h : d.leaveAttribute.tree.HasOnlyAttributes i)
    (hshape : d.leaveAttribute.tree.Shape d.leaveAttribute.current)
    (hi : i < d.leaveAttribute.tree.size) (hkind : data.kind = .attr ∨ data.kind = .directive) :
    (d.attributeName t data).tree.HasOnlyAttributes i := by
  have hopen : (d.leaveAttribute.openNode data t.span).tree.HasOnlyAttributes i :=
    (h.sprout hshape (fun _ => hkind) hi).congr (Tree.keepsChildren_setSpan ..)
  unfold Draft.attributeName
  dsimp only
  split
  · exact hopen
  · exact hopen

/-- The node is open behind its start tag, which ends at `stop`, and its body comes next. -/
structure AtBody (m : Memory) (d : Draft) (i : Nat) (tag : Text) (stop : Nat) : Prop where
  current : d.current = i
  state : m.state = Memory.bodyState tag
  data : ∃ e, d.currentData = .element e ∧ e.tag = tag ∧ e.startTagEnd = some stop ∧
    e.endTagStart = none
  attributes : d.tree.HasOnlyAttributes i

/-- **With the token `t` a start tag ends**, that of the element `i`, and no other. -/
structure EndsStartTag (d d' : Draft) (ts : List Token) (pos : Nat) (t : Token) (m' : Memory)
    (i : Nat) : Prop where
  kind : t.kind = .startTagClose ∨ t.kind = .startTagSelfClose
  others : ∀ j, j ≠ i → (d'.tree.data j).startTag? = (d.tree.data j).startTag?
  ended : ∃ tag, (d'.tree.data i).startTag? = some (tag, t.span.stop)
  later : ∀ c ∈ ts, c.kind = .startTagClose → c.span.stop < t.span.stop
  /-- A bracket of its own ends it, and behind that stands the body unless there is none. -/
  body : t.kind = .startTagClose → t.error = none → pos < t.span.stop ∧
    ∀ tag, (d'.tree.data i).startTag? = some (tag, t.span.stop) →
      Memory.bodyState tag ≠ .content → d'.AtBody m' i tag t.span.stop

end Draft

/-! ## Tokens -/

namespace TemplateArtifact

variable {text rest u : Text} {m m' : Memory} {pos pos' : Nat} {xs : List Piece} {d : Draft}
  {t : Token} {before : Option Char} {kind : TokenKind} {error : Option LexError} {ts : List Token}
  {i : Nat} {e : Element} {outer : List (Nat × Element)} {path : List NodeKind}

/-- What is no tag neither begins a start tag nor ends one. -/
theorem inStartTag_of_yields (hsynced : Synced text m u pos xs d)
    (hy : m.Yields .template before u kind error rest m')
    (hkind : Draft.sparesElements kind = true ∨ kind = .unknown) :
    m'.inStartTag = m.inStartTag := by
  cases hy with
  | space | tagSpace | nameSpace | commentContent | fenceLineSpace | codeBlockAttribute
  | codeBlockContent | templateText | strayInStartTag | quotedValue | unquotedValue | directiveValue
  | mustacheContent | strayInEndTag | importStatement | closedExpression | openExpression
  | jsxExpression => rfl
  | codeBlockStart | codeBlockEnd | paragraphEnd | startTagOpen | startTag | selfClose
  | startTagClose | startTagBroken | endTagClose | endTagBroken =>
    simp [Draft.sparesElements] at hkind
  | commentStart state _ =>
    rcases state with state | state <;> simp [Memory.inStartTag, Memory.enter, state]
  | commentEnd state _ =>
    simp only [Synced, state] at hsynced
    simp [Memory.inStartTag, Memory.leave, state, hsynced.1]
  | mustacheEnd state _ =>
    simp only [Synced, state] at hsynced
    obtain ⟨_, _, _, ⟨hreturn, _⟩ | ⟨hreturn, _, _⟩⟩ := hsynced <;>
      simp [Memory.inStartTag, Memory.leave, state, hreturn]
  | proseText state _ =>
    rcases state with ⟨state, _⟩ | state <;> simp [Memory.inStartTag, Memory.goto, state]
  | contentMustache state _ _ | valueMustache state _ _ _ =>
    simp [Memory.inStartTag, Memory.enter, state]
  | rawText e state _ _ => cases e <;> simp [Memory.inStartTag, Memory.goto, state]
  | valueSpace state _ _ | fenceLineEnd state _ | endTagOpen state _ _ | namelessStart state _
  | attributeName state _ _ _ | directiveName state _ _ _ | attributeDelimiter state _
  | openingMark state _ _ | closingMark state _ _ | endTag state _ | namelessEnd state _ =>
    simp [Memory.inStartTag, Memory.goto, state]

/-- Within a start tag its element gets attributes, and nothing else. -/
theorem attributes_build (hsynced : Synced text m u pos xs d) (h : d.AmidStartTag ts pos i e outer)
    (hin : m.inStartTag = true) (hy : m.Yields .template before u kind error rest m')
    (hkind : t.kind = kind) (hspares : Draft.sparesElements kind = true ∨ kind = .unknown) :
    (d.build t).tree.HasOnlyAttributes i := by
  have hattributes := h.attributes
  have hi : i < d.tree.size :=
    Tree.lt_size_of_element (h.opened.element_of_mem List.mem_cons_self)
  cases hy with
  -- nothing is built of these
  | space | tagSpace | valueSpace | nameSpace | fenceLineEnd | fenceLineSpace | namelessStart
  | strayInStartTag | namelessEnd | strayInEndTag =>
    simp only [Draft.build, hkind]
    exact hattributes
  -- these do not stand in a start tag
  | commentStart state _ | proseText state _ =>
    rcases state with state | state <;> simp [Memory.inStartTag, state] at hin
  | rawText e state _ _ => cases e <;> simp [Memory.inStartTag, state] at hin
  | commentEnd state _ | commentContent state _ | codeBlockStart state _ _ | paragraphEnd state _
  | codeBlockAttribute state _ | codeBlockEnd state _ | codeBlockContent state _ _
  | endTagOpen state _ _ | startTagOpen state _ _ | contentMustache state _ _
  | templateText state _ _ | endTag state _ | endTagClose state _ | endTagBroken state _ =>
    simp [Memory.inStartTag, state] at hin
  | importStatement _ mdx _ | closedExpression _ mdx _ | openExpression _ mdx _
  | jsxExpression _ mdx _ => simp at mdx
  | startTag | selfClose | startTagClose | startTagBroken => simp [Draft.sparesElements] at hspares
  -- attributes
  | attributeName state _ _ _ | directiveName state _ _ _ =>
    simp only [Synced, state] at hsynced
    obtain ⟨path, htag, hstands⟩ := hsynced
    have hshape := hstands.shape
    obtain ⟨hcurrent, _, _⟩ := h.leaveAttribute hshape.root (htag.inStartTag hstands)
    have hleave := hattributes.congr d.keepsChildren_leaveAttribute
    simp only [Draft.build, hkind]
    refine Draft.attributes_attributeName hleave (Draft.shape_leaveAttribute hshape) ?_ ?_
    · exact hcurrent ▸ (Draft.shape_leaveAttribute hshape).edge_lt
    · simp [NodeData.kind]
  | attributeDelimiter | openingMark | closingMark =>
    simp only [Draft.build, hkind]
    exact hattributes.congr (d.keepsChildren_extend _)
  | unquotedValue | directiveValue | quotedValue =>
    simp only [Draft.build, hkind]
    exact hattributes.congr (d.keepsChildren_attributeValue _)
  -- a mustache stands under an attribute
  | valueMustache state _ _ _ =>
    simp only [Synced, state] at hsynced
    have hcurrent := AttributeOpen.current hsynced
    obtain ⟨path, _, hstands⟩ := AttributeOpen.exists_tagPath hsynced
    simp only [Draft.build, hkind]
    refine (hattributes.sprout hstands.shape (fun heq => ?_) hi).congr
      (Tree.keepsChildren_setSpan ..)
    have helement := h.opened.element_of_mem List.mem_cons_self
    rw [heq] at helement
    have hdata : d.currentData = .element e := NodeData.element?_eq_some.1 helement
    simp [Draft.currentKind, Tree.kind, show d.tree.data d.current = _ from hdata,
      NodeData.kind] at hcurrent
  | mustacheContent =>
    simp only [Draft.build, hkind]
    exact hattributes.congr (d.keepsChildren_mustacheContent t)
  | mustacheEnd =>
    simp only [Draft.build, hkind]
    exact hattributes.congr (d.keepsChildren_mustacheEnd t)

/-- A start tag begins: an element is open of which nothing is known. -/
theorem begins_startTag (h : d.Begun) (hts : ∀ c ∈ ts, c.span.stop ≤ pos) (hpos : pos < pos')
    (ht : t.kind ≠ .startTagClose) :
    (∃ outer,
        (d.openNode (.element {}) t.span).AmidStartTag (ts ++ [t]) pos' d.tree.size {} outer) ∧
      d.KeepsStarts (d.openNode (.element {}) t.span) := by
  have hcurrent := h.shape.edge_lt
  obtain ⟨es, hes, hall⟩ := h.opened
  refine ⟨⟨es, Draft.opened_openElement hes h.shape, hall, rfl, rfl, ?_, ?_⟩, fun j => ?_⟩
  · intro j hj
    have hj : j ∈ ((d.tree.sprout (.element {}) t.span d.current).setSpan _ _).children
        d.tree.size := hj
    rw [Tree.children_setSpan, Tree.children_sprout hcurrent, if_pos rfl] at hj
    exact absurd hj List.not_mem_nil
  · intro c hc hkind
    rcases List.mem_append.1 hc with hc | hc
    · exact Nat.lt_of_le_of_lt (hts c hc) hpos
    · rw [List.mem_singleton.1 hc] at hkind
      exact absurd hkind ht
  · show (((d.tree.sprout (.element {}) t.span d.current).setSpan _ _).data j).startTag? = _
    rw [Tree.data_setSpan, Tree.data_sprout hcurrent]
    split
    · next heq =>
      rw [heq, Tree.data_of_size_le (Nat.le_refl _)]
      rfl
    · rfl

/-- The element gets its name. -/
theorem names_startTag (h : d.AmidStartTag ts pos i e outer) (hdata : d.currentData = .element {})
    (hshape : d.tree.Shape d.current) (hpos : pos ≤ pos') (ht : t.kind ≠ .startTagClose) :
    (d.startTag t).AmidStartTag (ts ++ [t]) pos' d.current { tag := t.lexeme } outer ∧
      d.KeepsStarts (d.startTag t) := by
  obtain ⟨outer', heq⟩ := Draft.exists_outer h.opened hdata
  obtain ⟨hhead, rfl⟩ := List.cons.inj heq
  obtain ⟨rfl, rfl⟩ := Prod.mk.inj hhead
  have hset := Draft.opened_setElement h.opened hdata hshape { tag := t.lexeme }
  have hchildren := Draft.keepsChildren_setCurrent (d := d)
    (.element { tag := t.lexeme }) (by rw [hdata]; rfl)
  have hstarts := Draft.keepsStarts_setCurrent { tag := t.lexeme } hdata rfl
  have hattributes := h.attributes.congr hchildren
  have hset : (d.setCurrent (.element { tag := t.lexeme })).AmidStartTag ts pos d.current
      { tag := t.lexeme } outer :=
    ⟨hset, h.begun, rfl, rfl, hattributes, h.later⟩
  simp only [Draft.startTag, hdata]
  refine ⟨hset.passes (Draft.passes_extend ..) ?_ hpos ht, hstarts.trans ?_⟩
  · exact hattributes.congr (Draft.keepsChildren_extend ..)
  · exact (Draft.passes_extend ..).keepsStarts

/-- The start tag of the element gets an end. -/
theorem ends_startTag {stop : Nat} (e' : Element) (h : d.AmidStartTag ts pos i e outer)
    (hshape : d.tree.Shape d.current) (htag : d.InStartTag) (hname : e'.tag = e.tag)
    (hend : e'.startTagEnd = some stop) :
    (d.leaveAttribute.setCurrent (.element e')).Begun ∧
      (∀ j, j ≠ i → ((d.leaveAttribute.setCurrent (.element e')).tree.data j).startTag?
        = (d.tree.data j).startTag?) ∧
      ((d.leaveAttribute.setCurrent (.element e')).tree.data i).startTag? = some (e.tag, stop) := by
  obtain ⟨rfl, hdata, hopened⟩ := h.leaveAttribute hshape.root htag
  have hleave := Draft.shape_leaveAttribute hshape
  refine ⟨⟨Draft.shape_setCurrent hleave _, _, Draft.opened_setElement hopened hdata hleave e', ?_⟩,
    ?_, ?_⟩
  · intro x hx
    rcases List.mem_cons.1 hx with rfl | hx
    · simp [hend]
    · exact h.begun x hx
  · intro j hj
    show ((d.leaveAttribute.tree.setData _ _).data j).startTag? = _
    rw [Tree.data_setData, if_neg fun heq => hj heq.1.symm]
    exact (Draft.passes_leaveAttribute hshape.root).keepsStarts j
  · show ((d.leaveAttribute.tree.setData _ _).data _).startTag? = _
    rw [Tree.data_setData, if_pos ⟨rfl, hleave.edge_lt⟩]
    simp [NodeData.startTag?, NodeData.element?, hend, hname]

/-- **The end of a start tag.** -/
theorem ends_startTagClose (m m' : Memory) (h : d.AmidStartTag ts pos i e outer)
    (hshape : d.tree.Shape d.current) (htag : d.InStartTag) (hkind : t.kind = .startTagClose) (hpos : pos ≤ t.span.stop)
    (hbody : t.error = none → pos < t.span.stop ∧ d.Inside m.lastTag ∧
      m'.state = Memory.bodyState m.lastTag) :
    (d.startTagClose t).Begun ∧ d.EndsStartTag (d.startTagClose t) ts pos t m' i := by
  obtain ⟨hcurrent, hdata, _⟩ := h.leaveAttribute hshape.root htag
  have hleave := Draft.shape_leaveAttribute hshape
  obtain ⟨hbegun, hothers, hended⟩ := ends_startTag
    { e with startTagEnd := some t.span.stop } h hshape htag rfl rfl
  have hset := Draft.currentData_setCurrent
    (.element { e with startTagEnd := some t.span.stop }) hleave.edge_lt
  have hchildren := (Draft.keepsChildren_leaveAttribute d).trans
    (Draft.keepsChildren_setCurrent (.element { e with startTagEnd := some t.span.stop })
      (by rw [hdata]; rfl))
  generalize hd₁ : d.leaveAttribute.setCurrent (.element { e with startTagEnd := some t.span.stop })
    = d₁ at hbegun hothers hended hset hchildren
  have hclose : d.startTagClose t
      = if isVoid e.tag = true then d₁.close t.span.stop else d₁.extend t.span.stop := by
    simp only [Draft.startTagClose, hdata, hd₁]
  have hkeeps : (d.startTagClose t).Begun ∧ d₁.KeepsStarts (d.startTagClose t) := by
    rw [hclose]
    split
    · exact ⟨hbegun.close _, d₁.keepsStarts_close _⟩
    · exact ⟨hbegun.passes (d₁.passes_extend _) (Draft.shape_extend hbegun.shape _),
        (d₁.passes_extend _).keepsStarts⟩
  have hended := (hkeeps.2 i).trans hended
  refine ⟨hkeeps.1, .inl hkind, fun j hj => (hkeeps.2 j).trans (hothers j hj), ⟨_, hended⟩,
    fun c hc hkind => Nat.lt_of_lt_of_le (h.later c hc hkind) hpos, fun _ herror => ?_⟩
  obtain ⟨hlt, hinside, hstate⟩ := hbody herror
  refine ⟨hlt, fun tag htag hne => ?_⟩
  obtain rfl : e.tag = tag := by
    rw [hended, Option.some.injEq] at htag
    exact (Prod.mk.inj htag).1
  have hname : e.tag = m.lastTag := hinside.leaveAttribute.tag_eq hdata
  -- an element whose body is opaque is not void, so it stays open
  have hopen : d.startTagClose t = d₁.extend t.span.stop := by
    rw [hclose, isVoid_of_bodyState hne]
    rfl
  rw [hopen]
  refine ⟨?_, ?_, ⟨_, (Draft.currentData_extend ..).trans hset, rfl, rfl, h.unended⟩,
    (h.attributes.congr hchildren).congr (Draft.keepsChildren_extend ..)⟩
  · rw [← hd₁]
    exact hcurrent
  · rw [hstate, hname]

/-- The end of a start tag that is an end tag as well. -/
theorem ends_startTagSelfClose (m' : Memory) (h : d.AmidStartTag ts pos i e outer)
    (hshape : d.tree.Shape d.current) (htag : d.InStartTag) (hkind : t.kind = .startTagSelfClose)
    (hpos : pos ≤ t.span.stop) :
    (d.startTagSelfClose t).Begun ∧ d.EndsStartTag (d.startTagSelfClose t) ts pos t m' i := by
  obtain ⟨_, hdata, _⟩ := h.leaveAttribute hshape.root htag
  obtain ⟨hbegun, hothers, hended⟩ := ends_startTag
    { e with selfClose := true, startTagEnd := some t.span.stop } h hshape htag rfl rfl
  simp only [Draft.startTagSelfClose, hdata]
  have hkeeps := Draft.keepsStarts_close (d.leaveAttribute.setCurrent
    (.element { e with selfClose := true, startTagEnd := some t.span.stop })) t.span.stop
  refine ⟨hbegun.close _, .inr hkind, fun j hj => (hkeeps j).trans (hothers j hj),
    ⟨_, (hkeeps i).trans hended⟩,
    fun c hc hkind => Nat.lt_of_lt_of_le (h.later c hc hkind) hpos, fun hclose => ?_⟩
  rw [hkind] at hclose
  simp at hclose

/-- **A token either ends one start tag, or it leaves the ends of all start tags alone.** Either way
no start tag is left open but the one that is being read. -/
theorem Tagged.step (h : d.Tagged m pos ts) (hsynced : Synced text m u pos xs d)
    (hnamed : Named m d) (hy : m.Yields .template before u kind error rest m')
    (hkind : t.kind = kind) (herror : t.error = error) (hlexeme : t.lexeme = Text.before u rest)
    (hstop : t.span.stop = pos + size t.lexeme) (hts : ∀ c ∈ ts, c.span.stop ≤ pos)
    (hbuilt : (d.build t).tree.Shape (d.build t).current) :
    (d.build t).Tagged m' t.span.stop (ts ++ [t]) ∧
      (t.kind ≠ .startTagClose ∧ d.KeepsStarts (d.build t) ∨
        ∃ i, d.EndsStartTag (d.build t) ts pos t m' i) := by
  have hshape := hsynced.shape
  have hle : pos ≤ t.span.stop := by omega
  have hnext (part : Text) (hread : u = part ++ rest) (hpart : part ≠ []) :
      pos < t.span.stop := by
    have hsize : 0 < size t.lexeme := by
      rw [hlexeme, hread, Text.before_append]
      exact size_pos hpart
    omega
  by_cases hspares : Draft.sparesElements kind = true ∨ kind = .unknown
  · have hpass : d.Passes (d.build t) := by
      rcases hspares with hspares | hunknown
      · obtain ⟨_, hstands⟩ := hsynced.stands
        exact Draft.passes_build hshape hstands.dialect_eq (hkind ▸ hspares)
      · rw [build_of_idle (.inr (hkind.trans hunknown))]
        exact .refl d
    have hnot : t.kind ≠ .startTagClose := by
      rw [hkind]
      rintro rfl
      simp [Draft.sparesElements] at hspares
    refine ⟨?_, .inl ⟨hnot, hpass.keepsStarts⟩⟩
    unfold Draft.Tagged at h ⊢
    rw [inStartTag_of_yields hsynced hy hspares]
    split
    · next hin =>
      rw [if_pos hin] at h
      obtain ⟨i, e, outer, h⟩ := h
      exact ⟨i, e, outer, h.passes hpass (attributes_build hsynced h hin hy hkind hspares) hle hnot⟩
    · next hin =>
      rw [if_neg hin] at h
      exact h.passes hpass hbuilt
  · cases hy with
    | startTagOpen state _ read =>
      simp only [Synced, state] at hsynced
      obtain ⟨path, hn, hstands⟩ := hsynced
      simp only [Draft.Tagged, Memory.inStartTag, state, Bool.false_eq_true, if_false] at h
      have hbuild : d.build t = d.openNode (.element {}) t.span := by
        simp only [Draft.build, hkind, Draft.startTagOpen, leaveAttribute_of_nested hn hstands]
      rw [hbuild]
      have hnot : t.kind ≠ .startTagClose := by rw [hkind]; decide
      obtain ⟨⟨outer, hamid⟩, hkeeps⟩ :=
        begins_startTag (t := t) h hts (hnext ['<'] read (by simp)) hnot
      exact ⟨⟨_, _, outer, hamid⟩, .inl ⟨hnot, hkeeps⟩⟩
    | startTag state _ =>
      simp only [Named, state] at hnamed
      simp only [Draft.Tagged, Memory.inStartTag, state, if_true] at h
      obtain ⟨i, e, outer, h⟩ := h
      simp only [Draft.build, hkind]
      have hnot : t.kind ≠ .startTagClose := by rw [hkind]; decide
      obtain ⟨hamid, hkeeps⟩ := names_startTag (t := t) h hnamed.1 hshape hle hnot
      exact ⟨⟨_, _, outer, hamid⟩, .inl ⟨by decide, hkeeps⟩⟩
    | startTagClose state read =>
      simp only [Synced, state] at hsynced
      simp only [Named, state] at hnamed
      obtain ⟨path, htag, hstands⟩ := hsynced
      simp only [Draft.Tagged, Memory.inStartTag, state, if_true] at h
      obtain ⟨i, e, outer, h⟩ := h
      simp only [Draft.build, hkind]
      obtain ⟨hbegun, hends⟩ := ends_startTagClose m
        (m.goto (Memory.bodyState m.lastTag)) h hshape (htag.inStartTag hstands) hkind hle
        fun _ => ⟨hnext ['>'] read (by simp), hnamed, rfl⟩
      refine ⟨?_, .inr ⟨i, hends⟩⟩
      unfold Draft.Tagged
      rw [m.inStartTag_goto_bodyState]
      exact hbegun
    | startTagBroken state read =>
      simp only [Synced, state] at hsynced
      obtain ⟨path, htag, hstands⟩ := hsynced
      simp only [Draft.Tagged, Memory.inStartTag, state, if_true] at h
      obtain ⟨i, e, outer, h⟩ := h
      simp only [Draft.build, hkind]
      obtain ⟨hbegun, hends⟩ := ends_startTagClose m (m.goto .content) h hshape
        (htag.inStartTag hstands) hkind hle fun hfine => by simp [herror] at hfine
      exact ⟨hbegun, .inr ⟨i, hends⟩⟩
    | selfClose state read =>
      simp only [Synced, state] at hsynced
      obtain ⟨path, htag, hstands⟩ := hsynced
      simp only [Draft.Tagged, Memory.inStartTag, state, if_true] at h
      obtain ⟨i, e, outer, h⟩ := h
      simp only [Draft.build, hkind]
      obtain ⟨hbegun, hends⟩ := ends_startTagSelfClose (m.goto .content) h hshape
        (htag.inStartTag hstands) hkind hle
      exact ⟨hbegun, .inr ⟨i, hends⟩⟩
    | endTagClose state _ | endTagBroken state _ =>
      simp only [Draft.Tagged, Memory.inStartTag, state, Bool.false_eq_true, if_false] at h
      simp only [Draft.build, hkind]
      obtain ⟨hbegun, hkeeps⟩ := d.closes_endTagClose t.span.stop h
      exact ⟨hbegun, .inl ⟨by decide, hkeeps⟩⟩
    | codeBlockStart state prose _ => exact absurd rfl prose
    | importStatement _ mdx _ | closedExpression _ mdx _ | openExpression _ mdx _
    | jsxExpression _ mdx _ => simp at mdx
    | paragraphEnd state _ | codeBlockAttribute state _ | codeBlockEnd state _
    | codeBlockContent state _ _ => simp only [Synced, state] at hsynced
    -- what is no tag
    | _ => simp [Draft.sparesElements] at hspares

end TemplateArtifact

end HybridMarkup
