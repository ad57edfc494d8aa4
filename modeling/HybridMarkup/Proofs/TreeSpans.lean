/-
Where the nodes of a tree lie in the document.

In a finished tree a node lies within its parent, and of two siblings the older one ends before the
newer one begins. The second holds all the time; the first does not. A leaf makes only the open node
longer, and what is above the open node grows when that is left, so while a tree is drafted the
nodes on the way up from the open one may reach beyond their parents. `Draft.Laid` says just that:
every node that is not on this way lies within its parent. To close a node takes it off the way, and
at the end of the text nothing but the root is left on it.

Each way of working on a draft has one lemma here. What the tokens do to a draft is put together from
them elsewhere.

Main statement: a finished draft is laid out over the whole text, and nothing is left on the way up
but the root (`Draft.Laid.finish`).
-/
import Mathlib.Logic.Relation
import HybridMarkup.Proofs.Drafts
import HybridMarkup.Proofs.TreeWalk

set_option autoImplicit false

namespace HybridMarkup

open Text

namespace Tree

variable {t t' : Tree} {i j p a edge : Nat}

/-! ## Places among the siblings -/

/-- Every node stands among the children of its parent where it says it does. -/
def Slotted (t : Tree) : Prop :=
  ∀ i p : Nat, t.parent i = some p → (t.children p)[(t.node i).slot]? = some i

theorem Slotted.congr (h : t.Slotted) (hparent : ∀ j, t'.parent j = t.parent j)
    (hchildren : ∀ j, t'.children j = t.children j)
    (hslot : ∀ j, (t'.node j).slot = (t.node j).slot) : t'.Slotted := by
  intro i p hp
  rw [hparent] at hp
  rw [hchildren, hslot]
  exact h i p hp

theorem slot_setData (t : Tree) (i : Nat) (data : NodeData) (j : Nat) :
    ((t.setData i data).node j).slot = (t.node j).slot := by
  rw [node_setData]
  split <;> rfl

theorem slot_setSpan (t : Tree) (i : Nat) (span : Span) (j : Nat) :
    ((t.setSpan i span).node j).slot = (t.node j).slot := by
  rw [node_setSpan]
  split <;> rfl

/-- A new child takes the first free place. -/
theorem Slotted.sprout (h : t.Slotted) (hshape : t.Shape p) (data : NodeData) (span : Span) :
    (t.sprout data span p).Slotted := by
  have hp := hshape.edge_lt
  intro i q hq
  rw [parent_sprout hp] at hq
  rw [node_sprout data span hp, children_sprout hp]
  split at hq
  · next hi =>
    obtain rfl : p = q := by simpa using hq
    rw [if_pos hi, if_neg (Nat.ne_of_lt hp), if_pos rfl, hi]
    exact List.getElem?_concat_length
  · next hi =>
    have hqi := hshape.parent_lt hq
    have hlt := lt_size_of_parent hq
    have hold := h i q hq
    have hslot : (if i = p then { t.node p with children := t.children p ++ [t.size] }
        else t.node i : Node).slot = (t.node i).slot := by
      split
      · next heq => rw [heq]
      · rfl
    rw [if_neg hi, hslot, if_neg (by omega : q ≠ t.size)]
    split
    · next heq =>
      subst heq
      exact List.getElem?_append_left (List.getElem?_eq_some_iff.1 hold).1 ▸ hold
    · exact hold

/-! ## The way to the root -/

/-- The node `i` stands somewhere under the node `a`, or is that node. -/
def Under (t : Tree) : Nat → Nat → Prop := Relation.ReflTransGen fun i p => t.parent i = some p

theorem Under.refl (t : Tree) (i : Nat) : t.Under i i := Relation.ReflTransGen.refl

theorem Under.of_parent (hp : t.parent i = some p) (h : t.Under p a) : t.Under i a :=
  Relation.ReflTransGen.head hp h

/-- What is above a node is the node itself, or is above its parent. -/
theorem Under.cases_parent (h : t.Under i a) (hp : t.parent i = some p) : a = i ∨ t.Under p a := by
  rcases Relation.ReflTransGen.cases_head h with rfl | ⟨q, hq, hrest⟩
  · exact .inl rfl
  · rw [hp, Option.some.injEq] at hq
    exact .inr (hq ▸ hrest)

/-- Nothing is above the root. -/
theorem Under.eq_of_orphan (h : t.Under i a) (hi : t.parent i = none) : a = i := by
  rcases Relation.ReflTransGen.cases_head h with rfl | ⟨q, hq, _⟩
  · rfl
  · rw [hi] at hq
    simp at hq

theorem Under.mono (h : t.Under i a)
    (hparent : ∀ j q : Nat, t.parent j = some q → t'.parent j = some q) : t'.Under i a :=
  Relation.ReflTransGen.mono hparent _ _ h

/-- A node is not older than what it stands under. -/
theorem Under.le (hshape : t.Shape edge) (h : t.Under i a) : a ≤ i := by
  induction h with
  | refl => exact Nat.le_refl _
  | tail _ hp ih => exact Nat.le_trans (Nat.le_of_lt (hshape.parent_lt hp)) ih

/-- What the open node stands under is on the right edge as well. -/
theorem Under.shape (hshape : t.Shape edge) (h : t.Under edge a) : t.Shape a := by
  induction h with
  | refl => exact hshape
  | tail _ hp ih => exact ih.up hp

theorem under_of_mem_ancestors (hshape : t.Shape edge) (h : a ∈ t.ancestors i) : t.Under i a := by
  induction i using Nat.strongRecOn with
  | ind i ih =>
    rcases t.parent_cases i with hp | ⟨p, hp⟩
    · unfold ancestors at h
      cases hsize : t.size <;> rw [hsize] at h <;> simp [ancestorsIn, hp] at h
    · rw [ancestors_of_parent hshape hp] at h
      refine .of_parent hp ?_
      rcases List.mem_cons.1 h with rfl | h
      · exact .refl t a
      · exact ih p (hshape.parent_lt hp) h

/-- A node of the right edge has no newer sibling. -/
theorem Shape.no_later_sibling (h : t.Shape i) (hi : t.parent i = some p)
    (hj : t.parent j = some p) : ¬ i < j := by
  intro hlt
  obtain ⟨q, hq, hparent⟩ := h.rightmost j hlt (lt_size_of_parent hj)
  rw [hj, Option.some.injEq] at hparent
  have := h.parent_lt hi
  omega

end Tree

/-! ## What is noted in a node -/

/-- The places in the document that are noted in what a node stands for. -/
def NodeData.parts : NodeData → List Span
  | .codeBlock b => [b.contentSpan, Span.empty b.openerEnd]
  | .expressionStatement _ inner _ => [inner]
  | .attr a => a.valueSpan.toList
  | .directive a => a.valueSpan.toList
  | .mustache _ inner => [inner]
  | _ => []

/-- All that is noted lies within the span. -/
def NodeData.Fits (data : NodeData) (span : Span) : Prop :=
  ∀ s ∈ data.parts, span.start ≤ s.start ∧ s.stop ≤ span.stop

theorem NodeData.fits_of_nil {data : NodeData} (h : data.parts = []) (span : Span) :
    data.Fits span := by
  intro s hs
  rw [h] at hs
  exact absurd hs List.not_mem_nil

theorem NodeData.Fits.grow {data : NodeData} {span span' : Span} (h : data.Fits span)
    (hstart : span'.start = span.start) (hstop : span.stop ≤ span'.stop) : data.Fits span' :=
  fun s hs => ⟨hstart.symm ▸ (h s hs).1, Nat.le_trans (h s hs).2 hstop⟩

/-! ## The invariant -/

namespace Draft

variable {text : Text} {pos pos' : Nat} {d : Draft}

/-- A draft laid out along the text up to `pos`: every node but the root ends there at the latest,
siblings stand one behind the other, what is noted in a node lies within it, and a node lies within
its parent unless it is on the way from the open node to the root. -/
structure Laid (text : Text) (pos : Nat) (d : Draft) : Prop where
  text_eq : d.tree.text = text
  shape : d.tree.Shape d.current
  slots : d.tree.Slotted
  root_kind : d.tree.kind Tree.root = .root
  root_span : d.tree.span Tree.root = ⟨0, size text⟩
  pos_le : pos ≤ size text
  ordered : ∀ i : Nat, (d.tree.span i).start ≤ (d.tree.span i).stop
  behind : ∀ i : Nat, i ≠ Tree.root → (d.tree.span i).stop ≤ pos
  starts : ∀ i p : Nat, d.tree.parent i = some p →
    (d.tree.span p).start ≤ (d.tree.span i).start
  apart : ∀ i j p : Nat, d.tree.parent i = some p → d.tree.parent j = some p → i < j →
    (d.tree.span i).stop ≤ (d.tree.span j).start
  parts : ∀ i : Nat, (d.tree.data i).Fits (d.tree.span i)
  inside : ∀ i p : Nat, d.tree.parent i = some p → ¬ d.tree.Under d.current i →
    (d.tree.span i).stop ≤ (d.tree.span p).stop

theorem Laid.ne_root_of_parent {i p : Nat} (h : d.Laid text pos) (hp : d.tree.parent i = some p) :
    i ≠ Tree.root := by
  rintro rfl
  rw [h.shape.root] at hp
  simp at hp

/-- A node that is not of the kind of the root is not the root. -/
theorem Laid.ne_root_of_data {i : Nat} {data : NodeData} (h : d.Laid text pos)
    (hdata : d.tree.data i = data) (hkind : data.kind ≠ .root) : i ≠ Tree.root := by
  rintro rfl
  exact hkind (hdata ▸ h.root_kind)

/-- Everything begins in front of the place that is reached. -/
theorem Laid.start_le (h : d.Laid text pos) (i : Nat) : (d.tree.span i).start ≤ pos := by
  by_cases hi : i = Tree.root
  · rw [hi, h.root_span]
    exact Nat.zero_le _
  · exact Nat.le_trans (h.ordered i) (h.behind i hi)

theorem Laid.mono (h : d.Laid text pos) (hle : pos ≤ pos') (hend : pos' ≤ size text) :
    d.Laid text pos' :=
  { h with pos_le := hend, behind := fun i hi => Nat.le_trans (h.behind i hi) hle }

/-- What is reported, and what is remembered of an end tag, is no matter of the layout. -/
theorem Laid.of_tree {d' : Draft} (h : d.Laid text pos) (htree : d'.tree = d.tree)
    (hcurrent : d'.current = d.current) : d'.Laid text pos := by
  obtain ⟨text_eq, shape, slots, root_kind, root_span, pos_le, ordered, behind, starts, apart,
    parts, inside⟩ := h
  rw [← htree] at text_eq shape slots root_kind root_span ordered behind starts apart parts inside
  rw [← hcurrent] at shape inside
  exact ⟨text_eq, shape, slots, root_kind, root_span, pos_le, ordered, behind, starts, apart,
    parts, inside⟩

theorem Laid.report (h : d.Laid text pos) (error : ParseError) (span : Span) :
    (d.report error span).Laid text pos :=
  h.of_tree rfl rfl

theorem Laid.reportLexical (h : d.Laid text pos) (error : LexError) (span : Span) :
    (d.reportLexical error span).Laid text pos :=
  h.of_tree rfl rfl

/-- What a node stands for may change as long as its kind does not. -/
theorem Laid.setData {i : Nat} {data : NodeData} (h : d.Laid text pos)
    (hkind : data.kind = d.tree.kind i) (hfits : data.Fits (d.tree.span i)) :
    (d.setData i data).Laid text pos := by
  have hparent (j : Nat) : (d.setData i data).tree.parent j = d.tree.parent j :=
    Tree.parent_setData ..
  have hchildren (j : Nat) : (d.setData i data).tree.children j = d.tree.children j :=
    Tree.children_setData ..
  have hspan (j : Nat) : (d.setData i data).tree.span j = d.tree.span j := Tree.span_setData ..
  refine ⟨h.text_eq, h.shape.congr (Tree.size_setData ..) hparent hchildren,
    h.slots.congr hparent hchildren (Tree.slot_setData _ _ _), ?_, ?_, h.pos_le, ?_, ?_, ?_, ?_,
    ?_, ?_⟩
  · rw [Tree.kind, show (d.setData i data).tree = d.tree.setData i data from rfl,
      Tree.data_setData]
    split
    · next heq => rw [hkind, heq.1, h.root_kind]
    · exact h.root_kind
  · rw [hspan, h.root_span]
  · intro j
    rw [hspan]
    exact h.ordered j
  · intro j hj
    rw [hspan]
    exact h.behind j hj
  · intro j p hp
    rw [hparent] at hp
    rw [hspan, hspan]
    exact h.starts j p hp
  · intro j k p hj hk hlt
    rw [hparent] at hj hk
    rw [hspan, hspan]
    exact h.apart j k p hj hk hlt
  · intro j
    rw [hspan, show (d.setData i data).tree = d.tree.setData i data from rfl, Tree.data_setData]
    split
    · next heq => exact heq.1 ▸ hfits
    · exact h.parts j
  · intro j p hp hopen
    rw [hparent] at hp
    rw [hspan, hspan]
    refine h.inside j p hp fun hunder => hopen ?_
    exact hunder.mono fun k q hk => (hparent k).trans hk

/-- **The end of a node moves that is on the way to the root.** It has no newer sibling that could
be in its way; it has to stay behind its own children and what is noted in it. -/
theorem Laid.setStop {i stop : Nat} (h : d.Laid text pos) (hi : d.tree.Under d.current i)
    (hroot : i = Tree.root → stop = size text) (hstart : (d.tree.span i).start ≤ stop)
    (hpos : i ≠ Tree.root → stop ≤ pos)
    (hparts : ∀ s ∈ (d.tree.data i).parts, s.stop ≤ stop)
    (hinside : ∀ c : Nat, d.tree.parent c = some i → ¬ d.tree.Under d.current c →
      (d.tree.span c).stop ≤ stop) :
    ({ d with tree := d.tree.setSpan i ⟨(d.tree.span i).start, stop⟩ } : Draft).Laid text pos := by
  have hedge : d.tree.Shape i := hi.shape h.shape
  have hparent (j : Nat) := Tree.parent_setSpan d.tree i ⟨(d.tree.span i).start, stop⟩ j
  have hchildren (j : Nat) := Tree.children_setSpan d.tree i ⟨(d.tree.span i).start, stop⟩ j
  have hspan (j : Nat) : (d.tree.setSpan i ⟨(d.tree.span i).start, stop⟩).span j
      = if i = j then ⟨(d.tree.span i).start, stop⟩ else d.tree.span j := by
    rw [Tree.span_setSpan]
    by_cases hij : i = j
    · rw [if_pos ⟨hij, hij ▸ hedge.edge_lt⟩, if_pos hij]
    · rw [if_neg fun hand => hij hand.1, if_neg hij]
  have hstarts (j : Nat) : ((d.tree.setSpan i ⟨(d.tree.span i).start, stop⟩).span j).start
      = (d.tree.span j).start := by
    rw [hspan]
    split
    · next hij => rw [← hij]
    · rfl
  refine ⟨h.text_eq, h.shape.congr (Tree.size_setSpan ..) hparent hchildren,
    h.slots.congr hparent hchildren (Tree.slot_setSpan _ _ _), ?_, ?_, h.pos_le, ?_, ?_, ?_, ?_,
    ?_, ?_⟩
  · dsimp only
    rw [Tree.kind, Tree.data_setSpan]
    exact h.root_kind
  · dsimp only
    rw [hspan]
    split
    · next heq => rw [hroot heq, heq, h.root_span]
    · exact h.root_span
  · intro j
    dsimp only
    rw [hspan]
    split
    · exact hstart
    · exact h.ordered j
  · intro j hj
    dsimp only
    rw [hspan]
    split
    · next heq => exact hpos (heq ▸ hj)
    · exact h.behind j hj
  · intro j p hp
    dsimp only at hp ⊢
    rw [hparent] at hp
    rw [hstarts, hstarts]
    exact h.starts j p hp
  · intro j k p hj hk hlt
    dsimp only at hj hk ⊢
    rw [hparent] at hj hk
    rw [hstarts, hspan, if_neg]
    · exact h.apart j k p hj hk hlt
    · rintro rfl
      exact hedge.no_later_sibling hj hk hlt
  · intro j
    dsimp only
    rw [hspan, Tree.data_setSpan]
    split
    · next heq => exact heq ▸ fun s hs => ⟨(h.parts i s hs).1, hparts s hs⟩
    · exact h.parts j
  · intro j p hp hopen
    dsimp only at hp hopen ⊢
    rw [hparent] at hp
    have hopen : ¬ d.tree.Under d.current j := fun hunder =>
      hopen (hunder.mono fun k q hk => (hparent k).trans hk)
    have hij : i ≠ j := by
      rintro rfl
      exact hopen hi
    rw [hspan, hspan, if_neg hij]
    split
    · next heq => exact hinside j (heq ▸ hp) hopen
    · exact h.inside j p hp hopen

/-- A node on the way to the root covers more than before. -/
theorem Laid.grow {i stop : Nat} (h : d.Laid text pos) (hi : d.tree.Under d.current i)
    (hstop : stop ≤ pos) : (d.grow i stop).Laid text pos := by
  refine h.setStop hi ?_ ?_ ?_ ?_ ?_
  · rintro rfl
    rw [h.root_span]
    exact Nat.max_eq_left (Nat.le_trans hstop h.pos_le)
  · exact Nat.le_trans (h.ordered i) (Nat.le_max_left _ _)
  · intro hroot
    exact Nat.max_le.2 ⟨h.behind i hroot, hstop⟩
  · intro s hs
    exact Nat.le_trans (h.parts i s hs).2 (Nat.le_max_left _ _)
  · intro c hc hopen
    exact Nat.le_trans (h.inside c i hc hopen) (Nat.le_max_left _ _)

theorem Laid.extend {stop : Nat} (h : d.Laid text pos) (hstop : stop ≤ pos) :
    (d.extend stop).Laid text pos :=
  h.grow (.refl _ _) hstop

/-- The node that is left lies within its parent. -/
theorem Laid.moveUp {p : Nat} (h : d.Laid text pos) (hp : d.tree.parent d.current = some p)
    (hin : (d.tree.span d.current).stop ≤ (d.tree.span p).stop) :
    ({ d with current := p } : Draft).Laid text pos := by
  refine ⟨h.text_eq, h.shape.up hp, h.slots, h.root_kind, h.root_span, h.pos_le, h.ordered,
    h.behind, h.starts, h.apart, h.parts, fun i q hq hopen => ?_⟩
  by_cases hi : i = d.current
  · subst hi
    rw [hp, Option.some.injEq] at hq
    exact hq ▸ hin
  · refine h.inside i q hq fun hunder => ?_
    rcases hunder.cases_parent hp with heq | hunder
    · exact hi heq
    · exact hopen hunder

/-- To ascend is to let the parent grow first. -/
theorem Laid.ascend (h : d.Laid text pos) (hcurrent : d.current ≠ Tree.root) :
    d.ascend.Laid text pos := by
  unfold Draft.ascend
  split
  · exact h
  · next p hp =>
    have hlt := h.shape.parent_lt hp
    have hgrow := h.grow (.of_parent hp (.refl _ _)) (h.behind d.current hcurrent)
    refine hgrow.moveUp ((Tree.parent_setSpan ..).trans hp) ?_
    -- the parent is another node, so the one that is left has kept its end
    show ((d.tree.setSpan p _).span d.current).stop ≤ ((d.tree.setSpan p _).span p).stop
    rw [Tree.span_setSpan, Tree.span_setSpan, if_neg fun hand => Nat.ne_of_lt hlt hand.1,
      if_pos ⟨rfl, Nat.lt_trans hlt h.shape.edge_lt⟩]
    exact Nat.le_max_right _ _

/-- The open node gets its final end at the place that is reached, where it covers all its
children and all that is noted in it. -/
theorem Laid.stretch (h : d.Laid text pos) (hcurrent : d.current ≠ Tree.root) :
    ({ d with
        tree := d.tree.setSpan d.current
          ⟨(d.tree.span d.current).start, max pos (d.tree.span d.current).start⟩ } : Draft).Laid
      text pos := by
  refine h.setStop (.refl _ _) ?_ ?_ ?_ ?_ ?_
  · exact fun hroot => absurd hroot hcurrent
  · exact Nat.le_max_right _ _
  · exact fun _ => Nat.max_le.2 ⟨Nat.le_refl _, h.start_le d.current⟩
  · intro s hs
    have hle := Nat.le_trans (h.parts d.current s hs).2 (h.behind d.current hcurrent)
    exact Nat.le_trans hle (Nat.le_max_left _ _)
  · intro c hc _
    exact Nat.le_trans (h.behind c (h.ne_root_of_parent hc)) (Nat.le_max_left _ _)

/-- **A node is closed at the place that is reached.** -/
theorem Laid.close (h : d.Laid text pos) (hcurrent : d.current ≠ Tree.root) :
    (d.close pos).Laid text pos :=
  (h.stretch hcurrent).ascend hcurrent

/-- What the open node takes note of may lie where it only reaches to afterwards. -/
theorem Laid.fill {data : NodeData} {stop : Nat} (h : d.Laid text pos)
    (hkind : data.kind = d.currentKind) (hfits : data.Fits ((d.tree.span d.current).growTo stop))
    (hstop : stop ≤ pos) : ((d.setCurrent data).extend stop).Laid text pos := by
  have hspan : (d.extend stop).tree.span d.current = (d.tree.span d.current).growTo stop := by
    show (d.tree.setSpan d.current _).span d.current = _
    rw [Tree.span_setSpan, if_pos ⟨rfl, h.shape.edge_lt⟩]
  have hswap : (d.setCurrent data).extend stop = (d.extend stop).setCurrent data := by
    show ({ d with
        tree := (d.tree.setData d.current data).setSpan d.current
          (((d.tree.setData d.current data).span d.current).growTo stop) } : Draft) = _
    rw [Tree.span_setData, Tree.setSpan_setData]
    rfl
  rw [hswap]
  refine (h.extend hstop).setData ?_ ?_
  · rw [hkind, Tree.kind, show (d.extend stop).tree = d.tree.setSpan _ _ from rfl,
      Tree.data_setSpan]
    rfl
  · rw [show (d.extend stop).current = d.current from rfl, hspan]
    exact hfits

/-- So may what it takes note of before it is closed. -/
theorem Laid.closeFilled {data : NodeData} (h : d.Laid text pos) (hcurrent : d.current ≠ Tree.root)
    (hkind : data.kind = d.currentKind)
    (hfits : data.Fits ⟨(d.tree.span d.current).start, pos⟩) :
    ((d.setCurrent data).close pos).Laid text pos := by
  have hswap : (d.setCurrent data).close pos
      = (({ d with
          tree := d.tree.setSpan d.current
            ⟨(d.tree.span d.current).start, max pos (d.tree.span d.current).start⟩ } :
          Draft).setCurrent data).ascend := by
    show ({ d with tree := (d.tree.setData d.current data).setSpan d.current _ } :
      Draft).ascend = _
    rw [show (d.setCurrent data).tree = d.tree.setData d.current data from rfl, Tree.span_setData,
      Tree.setSpan_setData]
    rfl
  rw [hswap]
  refine Laid.ascend ((h.stretch hcurrent).setData ?_ ?_) hcurrent
  · dsimp only
    rw [hkind, Tree.kind, Tree.data_setSpan]
    rfl
  · dsimp only
    rw [Tree.span_setSpan, if_pos ⟨rfl, h.shape.edge_lt⟩]
    exact hfits.grow rfl (Nat.le_max_left _ _)

/-! ## New nodes -/

/-- There is room for a child of the open node that begins at `start`. -/
def Room (d : Draft) (start : Nat) : Prop :=
  (d.tree.span d.current).start ≤ start ∧
    ∀ c : Nat, d.tree.parent c = some d.current → (d.tree.span c).stop ≤ start

/-- Behind all that is there is always room. -/
theorem Laid.room {start : Nat} (h : d.Laid text pos) (hstart : pos ≤ start) : d.Room start :=
  ⟨Nat.le_trans (h.start_le d.current) hstart, fun c hc =>
    Nat.le_trans (h.behind c (h.ne_root_of_parent hc)) hstart⟩

/-- **A new child of the open node, opened at once.** -/
theorem Laid.sprout {span : Span} (h : d.Laid text pos) (data : NodeData)
    (hfits : data.Fits span) (hroom : d.Room span.start) (hordered : span.start ≤ span.stop)
    (hle : pos ≤ span.stop) (hend : span.stop ≤ size text) :
    ({ d with
        tree := d.tree.sprout data span d.current
        current := d.tree.size } : Draft).Laid text span.stop := by
  have hcurrent := h.shape.edge_lt
  have hparent (j : Nat) : (d.tree.sprout data span d.current).parent j
      = if j = d.tree.size then some d.current else d.tree.parent j := Tree.parent_sprout hcurrent j
  have hspan (j : Nat) : (d.tree.sprout data span d.current).span j
      = if j = d.tree.size then span else d.tree.span j := Tree.span_sprout hcurrent j
  have hroot : Tree.root ≠ d.tree.size := Nat.ne_of_lt (Nat.lt_of_le_of_lt (Nat.zero_le _) hcurrent)
  -- what has a parent in the old tree is old, and so is the parent
  have hold {i p : Nat} (hp : d.tree.parent i = some p) : i ≠ d.tree.size ∧ p ≠ d.tree.size := by
    have hpi := h.shape.parent_lt hp
    have hi := Tree.lt_size_of_parent hp
    omega
  have hshape := (h.shape.sprout data span).last
  rw [Tree.size_sprout, Nat.add_sub_cancel] at hshape
  refine ⟨?_, hshape, h.slots.sprout h.shape data span, ?_, ?_, hend, ?_, ?_, ?_, ?_, ?_, ?_⟩
  · exact (Tree.text_sprout d.tree data span d.current).trans h.text_eq
  · dsimp only
    rw [Tree.kind, Tree.data_sprout hcurrent, if_neg hroot]
    exact h.root_kind
  · dsimp only
    rw [hspan, if_neg hroot, h.root_span]
  · intro i
    dsimp only
    rw [hspan]
    split
    · exact hordered
    · exact h.ordered i
  · intro i hi
    dsimp only
    rw [hspan]
    split
    · exact Nat.le_refl _
    · exact Nat.le_trans (h.behind i hi) hle
  · intro i p hp
    dsimp only at hp ⊢
    rw [hparent] at hp
    split at hp
    · next hnew =>
      obtain rfl : d.current = p := by simpa using hp
      rw [hspan, hspan, if_pos hnew, if_neg (Nat.ne_of_lt hcurrent)]
      exact hroom.1
    · rw [hspan, hspan, if_neg (hold hp).1, if_neg (hold hp).2]
      exact h.starts i p hp
  · intro i j p hi hj hlt
    dsimp only at hi hj ⊢
    rw [hparent] at hi hj
    have hj' : j < d.tree.size + 1 := by
      split at hj
      · omega
      · exact Nat.lt_succ_of_lt (Tree.lt_size_of_parent hj)
    rw [if_neg (by omega)] at hi
    rw [hspan, hspan, if_neg (by omega : i ≠ d.tree.size)]
    split at hj
    · next hnew =>
      obtain rfl : d.current = p := by simpa using hj
      rw [if_pos hnew]
      exact hroom.2 i hi
    · next hne =>
      rw [if_neg hne]
      exact h.apart i j p hi hj hlt
  · intro i
    dsimp only
    rw [hspan, Tree.data_sprout hcurrent]
    split
    · exact hfits
    · exact h.parts i
  · intro i p hp hopen
    dsimp only at hp hopen ⊢
    have hi : i ≠ d.tree.size := by
      rintro rfl
      exact hopen (.refl _ _)
    rw [hparent, if_neg hi] at hp
    rw [hspan, hspan, if_neg hi, if_neg (hold hp).2]
    refine h.inside i p hp fun hunder => hopen ?_
    refine .of_parent (p := d.current) (by rw [hparent, if_pos rfl]) (hunder.mono fun k q hk => ?_)
    rw [hparent, if_neg (hold hk).1]
    exact hk

/-- A node that is open from now on. -/
theorem Laid.openIn {span : Span} (h : d.Laid text pos) (data : NodeData)
    (hfits : data.Fits span) (hroom : d.Room span.start) (hordered : span.start ≤ span.stop)
    (hle : pos ≤ span.stop) (hend : span.stop ≤ size text) : (d.openNode data span).Laid text span.stop := by
  have hunder : (d.tree.sprout data span d.current).Under d.tree.size d.current :=
    .of_parent (by rw [Tree.parent_sprout h.shape.edge_lt, if_pos rfl]) (.refl _ _)
  exact (h.sprout data hfits hroom hordered hle hend).grow hunder (Nat.le_refl _)

/-- A node that takes no children is opened and left again. -/
theorem Laid.leafIn {span : Span} (h : d.Laid text pos) (data : NodeData)
    (hfits : data.Fits span) (hroom : d.Room span.start) (hordered : span.start ≤ span.stop)
    (hle : pos ≤ span.stop) (hend : span.stop ≤ size text) : (d.leaf data span).Laid text span.stop := by
  have hcurrent := h.shape.edge_lt
  refine (h.openIn data hfits hroom hordered hle hend).moveUp (p := d.current) ?_ ?_
  · exact (node_leaf data span hcurrent).2
  · show (((d.tree.sprout data span d.current).setSpan _ _).span d.tree.size).stop
      ≤ (((d.tree.sprout data span d.current).setSpan _ _).span d.current).stop
    rw [Tree.span_setSpan, Tree.span_setSpan, Tree.size_sprout,
      if_neg fun hand => Nat.ne_of_lt hcurrent hand.1, if_pos ⟨rfl, Nat.lt_succ_of_lt hcurrent⟩,
      Tree.span_sprout hcurrent, if_pos rfl]
    exact Nat.le_max_right _ _

/-- A node that has just been opened has room for a child that begins where it begins. -/
theorem Laid.room_openNode (h : d.Laid text pos) (data : NodeData) (span : Span) :
    (d.openNode data span).Room span.start := by
  have hcurrent := h.shape.edge_lt
  constructor
  · show (((d.tree.sprout data span d.current).setSpan _ _).span d.tree.size).start ≤ _
    refine Nat.le_of_eq ?_
    rw [Tree.span_setSpan, if_neg fun hand => Nat.ne_of_lt hcurrent hand.1,
      Tree.span_sprout hcurrent, if_pos rfl]
  -- it is the newest node, so it has no children
  · intro c hc
    have hc : ((d.tree.sprout data span d.current).setSpan _ _).parent c = some d.tree.size := hc
    rw [Tree.parent_setSpan] at hc
    have hlt := (h.shape.sprout data span).parent_lt hc
    have hsize := Tree.lt_size_of_parent hc
    rw [Tree.size_sprout] at hsize
    omega

section Token

variable {t : Token}

/-- The token that is read next has room, and behind it is where the draft will be. -/
theorem Laid.openNode (h : d.Laid text pos) (data : NodeData) (ht : t.Reads text pos pos')
    (hfits : data.Fits t.span) :
    (d.openNode data t.span).Laid text pos' := by
  have hopen := h.openIn data hfits (h.room (Nat.le_of_eq ht.start.symm)) ht.cuts.ordered
    (ht.stop ▸ ht.le) ht.cuts.stop_le
  rwa [ht.stop] at hopen

theorem Laid.leaf (h : d.Laid text pos) (data : NodeData) (ht : t.Reads text pos pos')
    (hfits : data.Fits t.span) :
    (d.leaf data t.span).Laid text pos' := by
  have hleaf := h.leafIn data hfits (h.room (Nat.le_of_eq ht.start.symm)) ht.cuts.ordered
    (ht.stop ▸ ht.le) ht.cuts.stop_le
  rwa [ht.stop] at hleaf

/-- A token that leaves no node behind. -/
theorem Laid.pass (h : d.Laid text pos) (ht : t.Reads text pos pos') : d.Laid text pos' :=
  h.mono ht.le (ht.stop ▸ ht.cuts.stop_le)

end Token

/-! ## Closing what nothing closed -/

theorem Laid.setEndTagStart (h : d.Laid text pos) (i start : Nat) :
    (d.setEndTagStart i start).Laid text pos := by
  unfold Draft.setEndTagStart
  split
  · next e heq => exact h.setData (Tree.kind_of_data heq).symm (NodeData.fits_of_nil rfl _)
  · exact h

theorem Laid.supplyEndTagStart (h : d.Laid text pos) (stop : Nat) :
    (d.supplyEndTagStart stop).Laid text pos := by
  unfold Draft.supplyEndTagStart
  split
  · next e heq => exact h.setData (Tree.kind_of_data heq).symm (NodeData.fits_of_nil rfl _)
  · exact h

/-- The same node is open, under the same nodes. -/
structure SameWay (d d' : Draft) : Prop where
  current : d'.current = d.current
  parent : ∀ j, d'.tree.parent j = d.tree.parent j

theorem SameWay.refl (d : Draft) : d.SameWay d := ⟨rfl, fun _ => rfl⟩

theorem SameWay.trans {d₁ d₂ d₃ : Draft} (h : d₁.SameWay d₂) (h' : d₂.SameWay d₃) :
    d₁.SameWay d₃ :=
  ⟨h'.current.trans h.current, fun j => (h'.parent j).trans (h.parent j)⟩

theorem sameWay_setData (d : Draft) (i : Nat) (data : NodeData) : d.SameWay (d.setData i data) :=
  ⟨rfl, fun _ => Tree.parent_setData ..⟩

theorem sameWay_setEndTagStart (d : Draft) (i start : Nat) :
    d.SameWay (d.setEndTagStart i start) := by
  unfold Draft.setEndTagStart
  split
  · exact sameWay_setData d i _
  · exact .refl d

theorem sameWay_supplyEndTagStart (d : Draft) (stop : Nat) :
    d.SameWay (d.supplyEndTagStart stop) := by
  unfold Draft.supplyEndTagStart
  split
  · exact sameWay_setData d _ _
  · exact .refl d

/-- A node that nothing closed is closed like any other, once that is noted and reported. -/
theorem Laid.exists_close (h : d.Laid text pos) (stop : Nat) :
    ∃ d' : Draft, d'.Laid text pos ∧ d.SameWay d' ∧ d.closeUnterminated stop = d'.close stop := by
  refine ⟨_, ?_, ?_, rfl⟩
  · split
    · next e heq =>
      refine Laid.report ?_ _ _
      exact h.setData (Tree.kind_of_data heq).symm (NodeData.fits_of_nil rfl _)
    · exact h.report _ _
    · split
      · exact h.report _ _
      · exact h
  · split
    · exact ⟨rfl, fun _ => Tree.parent_setData ..⟩
    · exact ⟨rfl, fun _ => rfl⟩
    · split <;> exact ⟨rfl, fun _ => rfl⟩

theorem parent_close (d : Draft) (stop j : Nat) :
    (d.close stop).tree.parent j = d.tree.parent j := by
  unfold Draft.close Draft.ascend
  dsimp only
  split
  · exact Tree.parent_setSpan ..
  · exact (Tree.parent_setSpan ..).trans (Tree.parent_setSpan ..)

/-- Where a node is closed, its parent is open. -/
theorem current_close {p : Nat} (hp : d.tree.parent d.current = some p) (stop : Nat) :
    (d.close stop).current = p := by
  unfold Draft.close Draft.ascend
  dsimp only
  rw [Tree.parent_setSpan, hp]
  rfl

/-- **One node less is open**: the parent of the one that nothing closed. -/
theorem Laid.closeUnterminated {p : Nat} (h : d.Laid text pos)
    (hp : d.tree.parent d.current = some p) :
    (d.closeUnterminated pos).Laid text pos ∧ (d.closeUnterminated pos).current = p ∧
      ∀ j, (d.closeUnterminated pos).tree.parent j = d.tree.parent j := by
  obtain ⟨d', h', hway, hclose⟩ := h.exists_close pos
  have hroot : d'.current ≠ Tree.root := hway.current ▸ h.ne_root_of_parent hp
  have hp' : d'.tree.parent d'.current = some p := by rw [hway.current, hway.parent, hp]
  rw [hclose]
  exact ⟨h'.close hroot, current_close hp' pos,
    fun j => (parent_close d' pos j).trans (hway.parent j)⟩

/-- The open nodes below a node are closed, and then that node is the open one. -/
theorem Laid.closeDownTo (target fuel : Nat) :
    ∀ {d : Draft}, d.Laid text pos → d.tree.Under d.current target → d.current ≤ fuel →
      (Draft.closeDownTo target pos fuel d).Laid text pos ∧
        (Draft.closeDownTo target pos fuel d).current = target := by
  induction fuel with
  | zero =>
    intro d h hunder hfuel
    have hzero : d.current = 0 := Nat.le_zero.1 hfuel
    have htarget : target ≤ 0 := hzero ▸ hunder.le h.shape
    exact ⟨h, hzero.trans (Nat.le_zero.1 htarget).symm⟩
  | succ fuel ih =>
    intro d h hunder hfuel
    unfold Draft.closeDownTo
    split
    · next heq => exact ⟨h, heq⟩
    · next hne =>
      have hway := sameWay_setEndTagStart d d.current pos
      rcases d.tree.parent_cases d.current with hp | ⟨p, hp⟩
      · exact absurd (hunder.eq_of_orphan hp).symm hne
      · have hlt := h.shape.parent_lt hp
        have hp' : (d.setEndTagStart d.current pos).tree.parent
            (d.setEndTagStart d.current pos).current = some p := by
          rw [hway.current, hway.parent, hp]
        obtain ⟨hclose, hcurrent, hparent⟩ := (h.setEndTagStart d.current pos).closeUnterminated hp'
        have hfuel : p ≤ fuel := Nat.le_of_lt_succ (Nat.lt_of_lt_of_le hlt hfuel)
        refine ih hclose ?_ (hcurrent.symm ▸ hfuel)
        rw [hcurrent]
        -- the target is not the node that is closed, so it is above its parent
        have hrest := (hunder.cases_parent hp).resolve_left (Ne.symm hne)
        exact hrest.mono fun j q hq => by rw [hparent, hway.parent, hq]

/-- At the end of the text everything is closed but the root. -/
theorem Laid.finishIn (fuel : Nat) :
    ∀ {d : Draft}, d.Laid text pos → d.current ≤ fuel →
      (Draft.finishIn fuel pos d).Laid text pos ∧
        (Draft.finishIn fuel pos d).current = Tree.root := by
  induction fuel with
  | zero =>
    intro d h hfuel
    exact ⟨h, Nat.le_zero.1 hfuel⟩
  | succ fuel ih =>
    intro d h hfuel
    unfold Draft.finishIn
    split
    · next heq => exact ⟨h, heq⟩
    · next hne =>
      have hway := sameWay_supplyEndTagStart d pos
      have hpositive : 0 < d.current := Nat.pos_of_ne_zero hne
      obtain ⟨p, hlt, hp⟩ := h.shape.older d.current hpositive h.shape.edge_lt
      have hp' : (d.supplyEndTagStart pos).tree.parent (d.supplyEndTagStart pos).current
          = some p := by
        rw [hway.current, hway.parent, hp]
      obtain ⟨hclose, hcurrent, _⟩ := (h.supplyEndTagStart pos).closeUnterminated hp'
      have hfuel : p ≤ fuel := Nat.le_of_lt_succ (Nat.lt_of_lt_of_le hlt hfuel)
      exact ih hclose (hcurrent.symm ▸ hfuel)

/-- **A finished draft is laid out, and nothing is open.** -/
theorem Laid.finish (h : d.Laid text pos) :
    d.finish.Laid text (size text) ∧ d.finish.current = Tree.root := by
  unfold Draft.finish
  rw [h.text_eq]
  exact (h.mono h.pos_le (Nat.le_refl _)).finishIn _ (Nat.le_of_lt h.shape.edge_lt)

end Draft

end HybridMarkup
