/-
How open nodes are closed.

Whatever closes a node does the same to the tree: the node gets what it stands for from then on and
its end, its parent grows to cover it and is the open node, and no other node changes
(`Draft.Shuts`). An end tag that belongs to an element further up closes what is open below that
element, and the end of the text closes all that is open. Nothing in the text closes these nodes, so
each of them is reported as it is closed (`Draft.Abandons`); the two loops are runs of such steps,
one for each open node on the way (`Draft.Abandoned`).

What a run of these steps does is said node by node (`Draft.Descends`): those on the way are
ended at one place, the node at which it stops has a later end at most, and the others stay as they
are.
-/
import HybridMarkup.Proofs.Growth

set_option autoImplicit false

namespace HybridMarkup

open Text

/-! ## What is reported -/

/-- The entry of a fault. -/
def ParseError.entry (error : ParseError) (span : Span) : Diagnostic :=
  { name := error.name, message := error.message, severity := error.severity, span }

namespace NodeData

/-- If it is an element, its start tag ends at `stop`, unless it has ended before. -/
def withStart (stop : Nat) : NodeData → NodeData
  | .element e => .element { e with startTagEnd := some (e.startTagEnd.getD stop) }
  | data => data

/-- If it is an element, its end tag begins at `stop`. -/
def withEnd (stop : Nat) : NodeData → NodeData
  | .element e => .element { e with endTagStart := some stop }
  | data => data

/-- What a node that nothing closes stands for once it is closed at `stop`. -/
def endedAt (stop : Nat) (data : NodeData) : NodeData := (data.withEnd stop).withStart stop

variable {data : NodeData} {stop : Nat} {e : Element}

@[simp] theorem kind_withStart : (data.withStart stop).kind = data.kind := by cases data <;> rfl

@[simp] theorem kind_withEnd : (data.withEnd stop).kind = data.kind := by cases data <;> rfl

@[simp] theorem kind_endedAt : (data.endedAt stop).kind = data.kind := by simp [endedAt]

theorem endedAt_element : (NodeData.element e).endedAt stop = .element
    { e with startTagEnd := some (e.startTagEnd.getD stop), endTagStart := some stop } := rfl

theorem endedAt_other (h : data.element? = none) : data.endedAt stop = data := by
  cases data <;> simp_all [element?, endedAt, withEnd, withStart]

end NodeData

namespace Node

/-- A node that nothing closes, closed at `stop`. -/
def abandoned (stop : Nat) (n : Node) : Node :=
  { n with data := n.data.endedAt stop, span := ⟨n.span.start, max stop n.span.start⟩ }

/-- What is reported of a node that nothing closes, if it is closed at `stop`: all of it, or the
start tag of an element. -/
def complaintAt (stop : Nat) (n : Node) : Diagnostic :=
  match n.data with
  | .element e => ParseError.tagUnclosed.entry ⟨n.span.start, e.startTagEnd.getD stop⟩
  | .mustache _ _ => ParseError.mustacheEndExpected.entry ⟨n.span.start, stop⟩
  | _ => ParseError.tagUnclosed.entry ⟨n.span.start, stop⟩

/-- What is reported of a node that nothing closes. -/
def complaint (n : Node) : Diagnostic := n.complaintAt n.span.stop

variable {n : Node} {stop : Nat}

theorem start_complaint : n.complaint.span.start = n.span.start := by
  unfold complaint complaintAt
  split <;> rfl

theorem isUnclosed_complaint : n.complaint.isUnclosed = true := by
  unfold complaint complaintAt
  split <;> rfl

/-- What is known of a node when it is closed is known of it in the end. -/
theorem complaint_abandoned (hstart : n.span.start ≤ stop) :
    (n.abandoned stop).complaint = n.complaintAt stop := by
  have hmax : max stop n.span.start = stop := Nat.max_eq_left hstart
  cases hdata : n.data <;>
    simp [complaint, complaintAt, abandoned, NodeData.endedAt, NodeData.withEnd,
      NodeData.withStart, hdata, hmax]

/-- What is recorded of an end tag is not reported. -/
theorem complaintAt_withEnd :
    ({ n with data := n.data.withEnd stop } : Node).complaintAt stop = n.complaintAt stop := by
  cases hdata : n.data <;> simp [complaintAt, NodeData.withEnd, hdata]

end Node

/-- What is reported of a node that nothing closes. -/
def Tree.complaint (t : Tree) (i : NodeId) : Diagnostic := (t.node i).complaint

namespace Tree

variable {t : Tree} {i st : Nat} {e : Element}

theorem complaint_element (hdata : t.data i = .element e) (hst : e.startTagEnd = some st) :
    t.complaint i = ParseError.tagUnclosed.entry ⟨(t.span i).start, st⟩ := by
  have hnode : (t.node i).data = .element e := hdata
  simp only [complaint, Node.complaint, Node.complaintAt, hnode, hst]
  rfl

theorem complaint_mustache (hkind : t.kind i = .mustache) :
    t.complaint i = ParseError.mustacheEndExpected.entry (t.span i) := by
  have hdata : (t.node i).data.kind = .mustache := hkind
  cases hnode : (t.node i).data <;> rw [hnode] at hdata <;> try cases hdata
  simp only [complaint, Node.complaint, Node.complaintAt, hnode]
  rfl

theorem complaint_plain (hkind : t.kind i = .comment ∨ t.kind i = .codeBlock) :
    t.complaint i = ParseError.tagUnclosed.entry (t.span i) := by
  have hdata : (t.node i).data.kind = .comment ∨ (t.node i).data.kind = .codeBlock := hkind
  cases hnode : (t.node i).data <;> rw [hnode] at hdata <;> try simp [NodeData.kind] at hdata
  all_goals
    simp only [complaint, Node.complaint, Node.complaintAt, hnode]
    rfl

end Tree

/-- Who is above a node is a matter of the parents only. -/
theorem Tree.ancestors_congr {t t' : Tree} (hsize : t'.size = t.size)
    (hparent : ∀ j, t'.parent j = t.parent j) (i : Nat) : t'.ancestors i = t.ancestors i := by
  have hfuel (fuel : Nat) : ∀ i, t'.ancestorsIn fuel i = t.ancestorsIn fuel i := by
    induction fuel with
    | zero => exact fun _ => rfl
    | succ fuel ih =>
      intro i
      simp only [ancestorsIn, hparent]
      split
      · rfl
      · exact congrArg _ (ih _)
  rw [ancestors, ancestors, hsize, hfuel]

namespace Draft

variable {text : Text} {d d' d₁ : Draft} {data : NodeData} {stop i j p : Nat} {e : Element}
  {below : List Nat}

/-! ## Closing a node -/

/-- The open node stands for `data` now, and nothing else of the tree has changed. -/
structure Sets (data : NodeData) (d d' : Draft) : Prop where
  current : d'.current = d.current
  size : d'.tree.size = d.tree.size
  node : d'.tree.node d.current = { d.tree.node d.current with data }
  others : ∀ j, j ≠ d.current → d'.tree.node j = d.tree.node j

/-- The open node is left. It stands for `data` and ends at `stop`, and its parent, which covers it,
is open. Nothing else of the tree has changed. -/
structure Shuts (data : NodeData) (stop : Nat) (d d' : Draft) : Prop where
  parent : d.tree.parent d.current = some d'.current
  size : d'.tree.size = d.tree.size
  shut : d'.tree.node d.current = { d.tree.node d.current with
    data, span := ⟨(d.tree.span d.current).start, max stop (d.tree.span d.current).start⟩ }
  grown : d'.tree.node d'.current = { d.tree.node d'.current with
    span := (d.tree.span d'.current).growTo (max stop (d.tree.span d.current).start) }
  others : ∀ j, j ≠ d.current → j ≠ d'.current → d'.tree.node j = d.tree.node j

theorem sets_self (d : Draft) : d.Sets d.currentData d := ⟨rfl, rfl, rfl, fun _ _ => rfl⟩

theorem sets_setCurrent (hcurrent : d.current < d.tree.size) (data : NodeData) :
    d.Sets data (d.setCurrent data) := by
  refine ⟨rfl, Tree.size_setData .., ?_, fun j hj => ?_⟩
  · exact (Tree.node_setData ..).trans (if_pos ⟨rfl, hcurrent⟩)
  · exact (Tree.node_setData ..).trans (if_neg fun heq => hj heq.1.symm)

theorem Sets.of_tree (h : d.Sets data d') (htree : d₁.tree = d'.tree)
    (hcurrent : d₁.current = d'.current) : d.Sets data d₁ := by
  obtain ⟨current, size, node, others⟩ := h
  exact ⟨hcurrent.trans current, htree ▸ size, htree ▸ node, htree ▸ others⟩

theorem Sets.trans {data' : NodeData} (h : d.Sets data d₁) (h' : d₁.Sets data' d') :
    d.Sets data' d' := by
  refine ⟨h'.current.trans h.current, h'.size.trans h.size, ?_, fun j hj => ?_⟩
  · rw [← h.current, h'.node, h.current, h.node]
  · exact (h'.others j (h.current ▸ hj)).trans (h.others j hj)

theorem Sets.currentData_eq (h : d.Sets data d') : d'.currentData = data := by
  rw [currentData, Tree.data, h.current, h.node]

theorem Sets.parent_eq (h : d.Sets data d') (j : Nat) : d'.tree.parent j = d.tree.parent j := by
  by_cases hj : j = d.current
  · rw [hj, Tree.parent, h.node]
    rfl
  · rw [Tree.parent, h.others j hj]
    rfl

/-- What is closed is set before. -/
theorem Sets.shuts (h : d.Sets data d₁) (hshape : d.tree.Shape d.current)
    (hp : d.tree.parent d.current = some p) (stop : Nat) : d.Shuts data stop (d₁.close stop) := by
  have hlt := hshape.parent_lt hp
  have hp' : d₁.tree.parent d₁.current = some p := by rw [h.parent_eq, h.current, hp]
  have hspan : d₁.tree.span d₁.current = d.tree.span d.current := by
    rw [Tree.span, h.current, h.node]
    rfl
  have hnode (j : Nat) : (d₁.close stop).tree.node j
      = (((d₁.tree.setSpan d.current ⟨(d.tree.span d.current).start,
          max stop (d.tree.span d.current).start⟩).setSpan p
            ((d.tree.span p).growTo (max stop (d.tree.span d.current).start)))).node j := by
    have hself : ((d₁.tree.setSpan d.current ⟨(d.tree.span d.current).start,
        max stop (d.tree.span d.current).start⟩).span d.current)
          = ⟨(d.tree.span d.current).start, max stop (d.tree.span d.current).start⟩ := by
      rw [Tree.span_setSpan, if_pos ⟨rfl, h.size.symm ▸ hshape.edge_lt⟩]
    have hup : ((d₁.tree.setSpan d.current ⟨(d.tree.span d.current).start,
        max stop (d.tree.span d.current).start⟩).span p) = d.tree.span p := by
      rw [Tree.span_setSpan, if_neg fun heq => Nat.ne_of_gt hlt heq.1, Tree.span,
        h.others p (Nat.ne_of_lt hlt)]
      rfl
    unfold Draft.close Draft.ascend
    dsimp only
    rw [Tree.parent_setSpan, hp', hspan, h.current]
    dsimp only [Draft.grow]
    rw [hself, hup]
  have hcurrent : (d₁.close stop).current = p := current_close hp' stop
  refine ⟨by rw [hcurrent, hp], ?_, ?_, ?_, fun j hj hjp => ?_⟩
  · have hsize : (d₁.close stop).tree.size = d₁.tree.size := by
      unfold Draft.close Draft.ascend
      dsimp only
      split
      · exact Tree.size_setSpan ..
      · exact (Tree.size_setSpan ..).trans (Tree.size_setSpan ..)
    exact hsize.trans h.size
  · rw [hnode, Tree.node_setSpan, if_neg fun heq => Nat.ne_of_lt hlt heq.1, Tree.node_setSpan,
      if_pos ⟨rfl, h.size.symm ▸ hshape.edge_lt⟩, h.node]
  · have hup : p < (d₁.tree.setSpan d.current ⟨(d.tree.span d.current).start,
        max stop (d.tree.span d.current).start⟩).size := by
      rw [Tree.size_setSpan, h.size]
      exact Nat.lt_trans hlt hshape.edge_lt
    rw [hcurrent, hnode, Tree.node_setSpan, if_pos ⟨rfl, hup⟩, Tree.node_setSpan,
      if_neg fun heq => Nat.ne_of_gt hlt heq.1, h.others p (Nat.ne_of_lt hlt)]
  · rw [hcurrent] at hjp
    rw [hnode, Tree.node_setSpan, if_neg fun heq => hjp heq.1.symm, Tree.node_setSpan,
      if_neg fun heq => hj heq.1.symm, h.others j hj]

/-- The open node is left like that, and nothing is reported. -/
structure Leaves (data : NodeData) (stop : Nat) (d d' : Draft) : Prop
    extends Shuts data stop d d' where
  quiet : d'.diagnostics = d.diagnostics

theorem Sets.leaves (h : d.Sets data d₁) (hquiet : d₁.diagnostics = d.diagnostics)
    (hshape : d.tree.Shape d.current) (hp : d.tree.parent d.current = some p) (stop : Nat) :
    d.Leaves data stop (d₁.close stop) :=
  ⟨h.shuts hshape hp stop, (diagnostics_close d₁ stop).trans hquiet⟩

/-- Where a node is closed, the nodes but that one are as they were, up to their ends. -/
theorem Shuts.node_eq (h : d.Shuts data stop d') (hj : j ≠ d.current) :
    ∃ stop', d'.tree.node j
      = { d.tree.node j with span := ⟨(d.tree.span j).start, stop'⟩ } := by
  by_cases hup : j = d'.current
  · exact ⟨_, hup ▸ h.grown⟩
  · exact ⟨_, h.others j hj hup⟩

theorem Shuts.parent_eq (h : d.Shuts data stop d') (j : Nat) :
    d'.tree.parent j = d.tree.parent j := by
  by_cases hj : j = d.current
  · rw [hj, Tree.parent, h.shut]
    rfl
  · obtain ⟨stop', hnode⟩ := h.node_eq hj
    rw [Tree.parent, hnode]
    rfl

theorem Shuts.children_eq (h : d.Shuts data stop d') (j : Nat) :
    d'.tree.children j = d.tree.children j := by
  by_cases hj : j = d.current
  · rw [hj, Tree.children, h.shut]
    rfl
  · obtain ⟨stop', hnode⟩ := h.node_eq hj
    rw [Tree.children, hnode]
    rfl

theorem Shuts.start_eq (h : d.Shuts data stop d') (j : Nat) :
    (d'.tree.span j).start = (d.tree.span j).start := by
  by_cases hj : j = d.current
  · rw [hj, Tree.span, h.shut]
  · obtain ⟨stop', hnode⟩ := h.node_eq hj
    rw [Tree.span, hnode]

theorem Shuts.stop_eq (h : d.Shuts data stop d') (hstart : (d.tree.span d.current).start ≤ stop) :
    (d'.tree.span d.current).stop = stop := by
  rw [Tree.span, h.shut]
  exact Nat.max_eq_left hstart

theorem Shuts.data_eq (h : d.Shuts data stop d') (j : Nat) :
    d'.tree.data j = if j = d.current then data else d.tree.data j := by
  split
  · next hj => rw [hj, Tree.data, h.shut]
  · next hj =>
    obtain ⟨stop', hnode⟩ := h.node_eq hj
    rw [Tree.data, hnode]
    rfl

theorem Shuts.kind_eq (h : d.Shuts data stop d') (hkind : data.kind = d.currentKind) (j : Nat) :
    d'.tree.kind j = d.tree.kind j := by
  rw [Tree.kind, h.data_eq]
  split
  · next hj => rw [hkind, hj]; rfl
  · rfl

theorem Shuts.shape (h : d.Shuts data stop d') (hshape : d.tree.Shape d.current) :
    d'.tree.Shape d'.current :=
  (hshape.up h.parent).congr h.size h.parent_eq h.children_eq

/-- The nodes that are open stay open, but for the one that is left. -/
theorem Shuts.under_iff (h : d.Shuts data stop d') (hshape : d.tree.Shape d.current) :
    d'.tree.Under d'.current j ↔ j ≠ d.current ∧ d.tree.Under d.current j := by
  have hlt := hshape.parent_lt h.parent
  constructor
  · intro hunder
    have hunder : d.tree.Under d'.current j := hunder.congr fun k => (h.parent_eq k).symm
    have hle := hunder.le hshape
    exact ⟨by omega, .of_parent h.parent hunder⟩
  · rintro ⟨hj, hunder⟩
    exact ((hunder.cases_parent h.parent).resolve_left hj).congr h.parent_eq

theorem Shuts.closed_iff (h : d.Shuts data stop d') (hshape : d.tree.Shape d.current) :
    d'.Closed j ↔ j = d.current ∨ d.Closed j := by
  constructor
  · intro hclosed
    by_cases hj : j = d.current
    · exact .inl hj
    · exact .inr ⟨h.size ▸ hclosed.lt, fun hunder =>
        hclosed.off ((h.under_iff hshape).2 ⟨hj, hunder⟩)⟩
  · rintro (rfl | hclosed)
    · exact ⟨h.size ▸ hshape.edge_lt, fun hunder => ((h.under_iff hshape).1 hunder).1 rfl⟩
    · exact ⟨h.size ▸ hclosed.lt, fun hunder => hclosed.off ((h.under_iff hshape).1 hunder).2⟩

theorem Shuts.spares (h : d.Shuts data stop d') (hshape : d.tree.Shape d.current) :
    d.Spares d' := by
  refine fun j hj => ⟨(h.closed_iff hshape).2 (.inr hj), h.others j ?_ ?_⟩
  · exact fun heq => hj.off (heq ▸ .refl _ _)
  · exact fun heq => hj.off (heq ▸ .of_parent h.parent (.refl _ _))

/-- What is reported of a node that nothing closes is known when it is closed. -/
theorem Shuts.complaint_eq (h : d.Shuts (d.currentData.endedAt stop) stop d')
    (hstart : (d.tree.span d.current).start ≤ stop) :
    d'.tree.complaint d.current = (d.tree.node d.current).complaintAt stop := by
  rw [Tree.complaint, h.shut]
  exact Node.complaint_abandoned (n := d.tree.node d.current) hstart

/-! ## Closing what nothing closes -/

/-- The open node, which nothing closes, is closed at `stop`, and reported if it has to be closed.
All nodes end there at the latest. -/
structure Abandons (text : Text) (stop : Nat) (d d' : Draft) : Prop
    extends Shuts (d.currentData.endedAt stop) stop d d' where
  before : d.Laid text stop
  after : d'.Laid text stop
  diagnostics : d'.diagnostics = if d.currentKind.isStructural = true
    then d.diagnostics.push (d'.tree.complaint d.current) else d.diagnostics

theorem sets_setEndTagStart (hcurrent : d.current < d.tree.size) (start : Nat) :
    d.Sets (d.currentData.withEnd start) (d.setEndTagStart d.current start) := by
  have hself : d.tree.data d.current = d.currentData := rfl
  unfold Draft.setEndTagStart
  rw [hself]
  split
  · next e hdata =>
    rw [hdata]
    exact sets_setCurrent hcurrent _
  · next hother =>
    have hdata : d.currentData.withEnd start = d.currentData := by
      cases h : d.currentData with
      | element e => exact absurd h (hother e)
      | _ => rfl
    rw [hdata]
    exact sets_self d

/-- The node is reported, and then it is closed like any other. -/
theorem exists_close (hcurrent : d.current < d.tree.size) (stop : Nat) :
    ∃ d₁ : Draft, d.closeUnterminated stop = d₁.close stop ∧
      d.Sets (d.currentData.withStart stop) d₁ ∧
      d₁.diagnostics = if d.currentKind.isStructural = true
        then d.diagnostics.push ((d.tree.node d.current).complaintAt stop) else d.diagnostics := by
  have hnode : (d.tree.node d.current).data = d.currentData := rfl
  have hkind : d.currentKind = d.currentData.kind := rfl
  refine ⟨_, rfl, ?_⟩
  rw [hkind, Node.complaintAt, hnode]
  cases hdata : d.currentData with
  | element e => exact ⟨(sets_setCurrent hcurrent _).of_tree rfl rfl, rfl⟩
  | _ =>
    have hself : d.Sets d.currentData d := sets_self d
    rw [hdata] at hself
    exact ⟨hself.of_tree rfl rfl, rfl⟩

/-- **One step.** Where an end tag would begin is noted first. -/
theorem abandons_closeUnterminated (h : d.Laid text stop)
    (hp : d.tree.parent d.current = some p) :
    d.Abandons text stop ((d.setEndTagStart d.current stop).closeUnterminated stop) := by
  have hshape := h.shape
  have hset := sets_setEndTagStart hshape.edge_lt stop
  have hafter := ((h.setEndTagStart d.current stop).closeUnterminated (p := p)
    (by rw [hset.parent_eq, hset.current, hp])).1
  obtain ⟨d₁, hclose, hset₁, hdiagnostics⟩ := exists_close
    (d := d.setEndTagStart d.current stop) (by rw [hset.current, hset.size]; exact hshape.edge_lt)
    stop
  rw [hclose] at hafter ⊢
  have hset' : d.Sets (d.currentData.endedAt stop) d₁ := by
    have htrans := hset.trans hset₁
    rwa [hset.currentData_eq] at htrans
  have hshuts := hset'.shuts hshape hp stop
  refine ⟨hshuts, h, hafter, ?_⟩
  -- what is reported was read off before the node was closed
  have hcomplaint := hshuts.complaint_eq (h.start_le d.current)
  have hkind : (d.setEndTagStart d.current stop).currentKind = d.currentKind := by
    rw [currentKind, Tree.kind, show Tree.data _ _ = _ from hset.currentData_eq]
    exact NodeData.kind_withEnd
  rw [diagnostics_close, hdiagnostics, hkind, hcomplaint, hset.current, hset.node,
    diagnostics_setEndTagStart]
  split
  · exact congrArg _ Node.complaintAt_withEnd
  · rfl

/-- At the end of the text it is the same, since no open element has an end yet. -/
theorem supplyEndTagStart_eq (h : ∀ e, d.currentData = .element e → e.endTagStart = none)
    (stop : Nat) : d.supplyEndTagStart stop = d.setEndTagStart d.current stop := by
  have hself : d.tree.data d.current = d.currentData := rfl
  unfold Draft.supplyEndTagStart Draft.setEndTagStart
  rw [hself]
  cases hdata : d.currentData with
  | element e =>
    dsimp only
    rw [h e hdata, Option.none_or]
    rfl
  | _ => rfl

/-- The open nodes of the list, the innermost first, are closed one after another. -/
inductive Abandoned (text : Text) (stop : Nat) : List Nat → Draft → Draft → Prop where
  | nil (d : Draft) : Abandoned text stop [] d d
  | cons {d d₁ d' : Draft} {below : List Nat} (step : d.Abandons text stop d₁)
      (rest : Abandoned text stop below d₁ d') : Abandoned text stop (d.current :: below) d d'

/-- **What one step keeps is kept.** -/
theorem Abandoned.keeps {P : Draft → Prop} (h : Abandoned text stop below d d') (start : P d)
    (step : ∀ d d', d.Abandons text stop d' → P d → P d') : P d' := by
  induction h with
  | nil d => exact start
  | cons one _ ih => exact ih (step _ _ one start)

/-- **The end tag of an element further up** closes the open nodes below the element. -/
theorem exists_abandoned_closeDownTo (target fuel : Nat) :
    ∀ {d : Draft}, d.Laid text stop → d.tree.Under d.current target → d.current ≤ fuel →
      ∃ below, Abandoned text stop below d (closeDownTo target stop fuel d) ∧
        (closeDownTo target stop fuel d).current = target := by
  induction fuel with
  | zero =>
    intro d h hunder hfuel
    have hzero : d.current = 0 := Nat.le_zero.1 hfuel
    have htarget : target ≤ 0 := hzero ▸ hunder.le h.shape
    exact ⟨[], .nil d, hzero.trans (Nat.le_zero.1 htarget).symm⟩
  | succ fuel ih =>
    intro d h hunder hfuel
    unfold closeDownTo
    split
    · next heq => exact ⟨[], .nil d, heq⟩
    · next hne =>
      rcases d.tree.parent_cases d.current with hp | ⟨p, hp⟩
      · exact absurd (hunder.eq_of_orphan hp).symm hne
      · have hstep := abandons_closeUnterminated h hp
        have hup : ((d.setEndTagStart d.current stop).closeUnterminated stop).tree.Under
            ((d.setEndTagStart d.current stop).closeUnterminated stop).current target :=
          (hstep.under_iff h.shape).2 ⟨Ne.symm hne, hunder⟩
        have hlt := h.shape.parent_lt hstep.parent
        obtain ⟨below, hbelow, hcurrent⟩ :=
          ih hstep.after hup (Nat.le_of_lt_succ (Nat.lt_of_lt_of_le hlt hfuel))
        exact ⟨d.current :: below, .cons hstep hbelow, hcurrent⟩

/-- **The end of the text** closes all open nodes but the root. -/
theorem exists_abandoned_finishIn (fuel : Nat) :
    ∀ {d : Draft}, d.Laid text stop →
      (∀ i e, d.tree.Under d.current i → d.tree.data i = .element e → e.endTagStart = none) →
      d.current ≤ fuel →
      ∃ below, Abandoned text stop below d (finishIn fuel stop d) ∧
        (finishIn fuel stop d).current = Tree.root := by
  induction fuel with
  | zero => exact fun {d} h _ hfuel => ⟨[], .nil d, Nat.le_zero.1 hfuel⟩
  | succ fuel ih =>
    intro d h hopen hfuel
    unfold finishIn
    split
    · next heq => exact ⟨[], .nil d, heq⟩
    · next hne =>
      obtain ⟨p, hlt, hp⟩ := h.shape.older d.current (Nat.pos_of_ne_zero hne) h.shape.edge_lt
      have hstep := abandons_closeUnterminated h hp
      rw [← supplyEndTagStart_eq (fun e => hopen d.current e (.refl _ _))] at hstep
      have hlt := h.shape.parent_lt hstep.parent
      have hrest (i : Nat) (e : Element)
          (hi : ((d.supplyEndTagStart stop).closeUnterminated stop).tree.Under
            ((d.supplyEndTagStart stop).closeUnterminated stop).current i)
          (he : ((d.supplyEndTagStart stop).closeUnterminated stop).tree.data i = .element e) :
          e.endTagStart = none := by
        obtain ⟨hi, hunder⟩ := (hstep.under_iff h.shape).1 hi
        rw [hstep.data_eq, if_neg hi] at he
        exact hopen i e hunder he
      obtain ⟨below, hbelow, hcurrent⟩ :=
        ih hstep.after hrest (Nat.le_of_lt_succ (Nat.lt_of_lt_of_le hlt hfuel))
      exact ⟨d.current :: below, .cons hstep hbelow, hcurrent⟩

theorem exists_abandoned_finish (h : d.Laid text (size text))
    (hopen : ∀ i e, d.tree.Under d.current i → d.tree.data i = .element e → e.endTagStart = none) :
    ∃ below, Abandoned text (size text) below d d.finish ∧ d.finish.current = Tree.root := by
  unfold Draft.finish
  rw [h.text_eq]
  exact exists_abandoned_finishIn d.tree.size h hopen (Nat.le_of_lt h.shape.edge_lt)

/-! ## What a run does -/

/-- **What becomes of the nodes.** Those of the list are closed, the node at which the run stops may
have another end, and the others stay as they are. The list is the way from the open node to the one
that is open in the end. -/
structure Descends (stop : Nat) (below : List Nat) (d d' : Draft) : Prop where
  size : d'.tree.size = d.tree.size
  path : d.current :: d.tree.ancestors d.current
    = below ++ d'.current :: d.tree.ancestors d'.current
  newer : ∀ j ∈ below, d'.current < j
  closed : ∀ j ∈ below, d'.tree.node j = (d.tree.node j).abandoned stop
  last : ∃ stop', d'.tree.node d'.current
    = { d.tree.node d'.current with span := ⟨(d.tree.span d'.current).start, stop'⟩ }
  others : ∀ j, j ∉ below → j ≠ d'.current → d'.tree.node j = d.tree.node j

theorem Descends.of_path {d₂ : Draft} (h : d₁.Descends stop below d₂) :
    d₁.current ∈ below ∨ d₁.current = d₂.current := by
  have hpath := h.path
  cases below with
  | nil => exact .inr (List.cons.inj hpath).1
  | cons j below => exact .inl ((List.cons.inj hpath).1 ▸ List.mem_cons_self)

/-- One more node is closed first. -/
theorem Descends.cons {d₂ : Draft} (one : d.Shuts (d.currentData.endedAt stop) stop d₁)
    (h : d₁.Descends stop below d₂) (hshape : d.tree.Shape d.current) :
    d.Descends stop (d.current :: below) d₂ := by
  have hlt := hshape.parent_lt one.parent
  have hancestors (j : Nat) : d₁.tree.ancestors j = d.tree.ancestors j :=
    Tree.ancestors_congr one.size one.parent_eq j
  have hdown (j : Nat) (hj : j ∈ below ∨ j = d₂.current) : j < d.current := by
    have hle : ∀ j ∈ d₁.current :: d₁.tree.ancestors d₁.current, j ≤ d₁.current := by
      intro j hj
      rcases List.mem_cons.1 hj with rfl | hj
      · exact Nat.le_refl _
      · exact (Tree.under_of_mem_ancestors (one.shape hshape) hj).le (one.shape hshape)
    rw [h.path] at hle
    refine Nat.lt_of_le_of_lt (hle j ?_) hlt
    rcases hj with hj | rfl
    · exact List.mem_append_left _ hj
    · exact List.mem_append_right _ List.mem_cons_self
  have hnode (j : Nat) (hj : j ∈ below ∨ j = d₂.current) :=
    one.node_eq (Nat.ne_of_lt (hdown j hj))
  refine ⟨h.size.trans one.size, ?_, fun j hj => ?_, fun j hj => ?_, ?_, fun j hj hj' => ?_⟩
  · have hpath := h.path
    rw [hancestors, hancestors] at hpath
    rw [Tree.ancestors_of_parent hshape one.parent, hpath]
    rfl
  · rcases List.mem_cons.1 hj with rfl | hj
    · exact hdown _ (.inr rfl)
    · exact h.newer j hj
  · by_cases hbelow : j ∈ below
    · obtain ⟨stop', hj⟩ := hnode j (.inl hbelow)
      rw [h.closed j hbelow, hj]
      rfl
    · obtain rfl : j = d.current := (List.mem_cons.1 hj).resolve_right hbelow
      rw [h.others _ hbelow (Nat.ne_of_gt (hdown _ (.inr rfl))), one.shut]
      rfl
  · obtain ⟨stop', hlast⟩ := h.last
    obtain ⟨stop'', hd₂⟩ := hnode d₂.current (.inr rfl)
    refine ⟨stop', ?_⟩
    rw [hlast, Tree.span, hd₂]
  · have hne : j ≠ d.current := fun heq => hj (heq ▸ List.mem_cons_self)
    have hbelow : j ∉ below := fun hmem => hj (List.mem_cons_of_mem _ hmem)
    refine (h.others j hbelow hj').trans (one.others j hne fun heq => ?_)
    -- the parent is the next one to be closed, or the last
    rcases h.of_path with hmem | hlast
    · exact hbelow (heq ▸ hmem)
    · exact hj' (heq.trans hlast)

theorem Abandoned.descends (h : Abandoned text stop below d d')
    (hshape : d.tree.Shape d.current) : d.Descends stop below d' := by
  induction h with
  | nil d =>
    exact ⟨rfl, rfl, fun j hj => absurd hj List.not_mem_nil,
      fun j hj => absurd hj List.not_mem_nil, ⟨_, rfl⟩, fun _ _ _ => rfl⟩
  | cons one _ ih => exact (ih (one.shape hshape)).cons one.toShuts hshape

end Draft

end HybridMarkup
