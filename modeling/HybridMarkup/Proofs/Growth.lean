/-
How a draft grows.

Most tokens only add to a draft: a node is attached, or the open node takes note of something, or an
attribute or a paragraph is left for the node around it. Whatever they do, the nodes that are there
keep their parents, their kinds and the places where they begin (`Tree.Grows`); what has to be
closed stays open, what is closed stays as it is, and nothing is reported for not being closed
(`Draft.Holds`); and the elements stay what they are (`Draft.Retains`). There is one lemma for each
way of working on a draft, and from these the rules of all tokens are put together but those of the
seven that name an element, or end something that has to be closed (`TokenKind.retains`).

What is reported for not being closed is set apart from the other reports first. The sink merges an
entry into the one before it only if both have the same name. So where entries are told apart by
their names, no other report changes anything about those that are looked at
(`Diagnostics.filter_push_other`), and one of them stands for itself unless it begins where another
of them ends (`Diagnostics.filter_push`).
-/
import HybridMarkup.Proofs.StartTags

set_option autoImplicit false

namespace HybridMarkup

open Text

/-! ## Reports of what is not closed -/

/-- What is said of an entry is a matter of its name. -/
def Diagnostic.ByName (p : Diagnostic → Bool) : Prop :=
  ∀ x y : Diagnostic, x.name = y.name → p x = p y

namespace Diagnostics

variable {s : Diagnostics} {x : Diagnostic} {p : Diagnostic → Bool}

theorem eq_of_continuedBy (hp : Diagnostic.ByName p) {last : Diagnostic}
    (h : last.continuedBy x = true) : p last = p x := by
  simp only [Diagnostic.continuedBy, Bool.and_eq_true, beq_iff_eq] at h
  exact hp last x h.1.1

/-- **A report under another name** changes nothing about these. -/
theorem filter_push_other (hp : Diagnostic.ByName p) (hx : p x = false) :
    (s.push x).entries.filter p = s.entries.filter p := by
  unfold entries push
  cases hnewest : s.newestFirst with
  | nil => simp [hx]
  | cons last older =>
    dsimp only
    split
    · next hmerge =>
      have hlast : p last = false := (eq_of_continuedBy hp hmerge).trans hx
      have hmerged : p { last with span := last.span.cover x.span } = false :=
        (hp { last with span := last.span.cover x.span } last rfl).trans hlast
      simp [hlast, hmerged]
    · simp only [List.reverse_cons, List.filter_append, List.append_assoc]
      simp [hx]

/-- An entry that does not carry on the newest one is an entry of its own. -/
theorem entries_push (h : ∀ last, s.last? = some last → last.continuedBy x = false) :
    (s.push x).entries = s.entries ++ [x] := by
  unfold entries push
  cases hnewest : s.newestFirst with
  | nil => rfl
  | cons last older =>
    have hlast : last.continuedBy x = false := h last (by rw [last?, hnewest]; rfl)
    simp [hlast]

/-- Of two of these reports that do not meet none carries on the other. -/
theorem continuedBy_of_apart (hp : Diagnostic.ByName p) (hx : p x = true)
    (hapart : ∀ y ∈ s.entries.filter p, y.span.stop ≠ x.span.start) :
    ∀ last, s.last? = some last → last.continuedBy x = false := by
  intro last hlast
  refine Bool.eq_false_iff.2 fun hmerge => ?_
  have hmem : last ∈ s.entries.filter p := by
    refine List.mem_filter.2 ⟨List.mem_reverse.2 (List.mem_of_mem_head? hlast), ?_⟩
    rw [eq_of_continuedBy hp hmerge, hx]
  simp only [Diagnostic.continuedBy, Bool.and_eq_true, beq_iff_eq] at hmerge
  exact hapart last hmem hmerge.2

/-- **One more report** is one more entry, unless it begins where another of them ends. -/
theorem filter_push (hp : Diagnostic.ByName p) (hx : p x = true)
    (hapart : ∀ y ∈ s.entries.filter p, y.span.stop ≠ x.span.start) :
    (s.push x).entries.filter p = s.entries.filter p ++ [x] := by
  rw [entries_push (continuedBy_of_apart hp hx hapart), List.filter_append]
  simp [hx]

end Diagnostics

/-- Whether the report is that something is not closed. -/
def Diagnostic.isUnclosed (x : Diagnostic) : Bool :=
  x.name == ParseError.tagUnclosed.name || x.name == ParseError.mustacheEndExpected.name

theorem Diagnostic.byName_isUnclosed : ByName isUnclosed := by
  intro x y h
  rw [isUnclosed, isUnclosed, h]

/-- The entries that say that something is not closed. -/
def Diagnostics.unclosed (s : Diagnostics) : List Diagnostic :=
  s.entries.filter Diagnostic.isUnclosed

/-! ## Growing trees -/

namespace Tree

variable {t t' t'' : Tree} {new : Nat → NodeKind → Nat → Prop} {i p : Nat}

/-- Nodes are only added to the first tree, and what is said of each of them by its parent, its kind
and its start is `new`. The others keep these three. -/
structure Grows (new : Nat → NodeKind → Nat → Prop) (t t' : Tree) : Prop where
  size_le : t.size ≤ t'.size
  parents : ∀ i, i < t.size → t'.parent i = t.parent i
  kinds : ∀ i, i < t.size → t'.kind i = t.kind i
  starts : ∀ i, i < t.size → (t'.span i).start = (t.span i).start
  fresh : ∀ i, t.size ≤ i → i < t'.size →
    ∃ p : Nat, t'.parent i = some p ∧ new p (t'.kind i) (t'.span i).start

/-- No node is added. -/
def NoNode (_ : Nat) (_ : NodeKind) (_ : Nat) : Prop := False

theorem Grows.size_eq (h : t.Grows NoNode t') : t'.size = t.size := by
  refine Nat.le_antisymm (Nat.le_of_not_lt fun hlt => ?_) h.size_le
  obtain ⟨p, _, hnone⟩ := h.fresh t.size (Nat.le_refl _) hlt
  exact hnone

theorem Grows.refl (t : Tree) : t.Grows new t :=
  ⟨Nat.le_refl _, fun _ _ => rfl, fun _ _ => rfl, fun _ _ => rfl,
    fun _ hi hlt => absurd hlt (Nat.not_lt_of_le hi)⟩

theorem Grows.trans (h : t.Grows new t') (h' : t'.Grows new t'') : t.Grows new t'' := by
  refine ⟨Nat.le_trans h.size_le h'.size_le, fun i hi => ?_, fun i hi => ?_, fun i hi => ?_,
    fun i hi hlt => ?_⟩
  · exact (h'.parents i (Nat.lt_of_lt_of_le hi h.size_le)).trans (h.parents i hi)
  · exact (h'.kinds i (Nat.lt_of_lt_of_le hi h.size_le)).trans (h.kinds i hi)
  · exact (h'.starts i (Nat.lt_of_lt_of_le hi h.size_le)).trans (h.starts i hi)
  · by_cases hmid : i < t'.size
    · rw [h'.parents i hmid, h'.kinds i hmid, h'.starts i hmid]
      exact h.fresh i hi hmid
    · exact h'.fresh i (Nat.le_of_not_lt hmid) hlt

theorem Grows.mono {more : Nat → NodeKind → Nat → Prop} (h : t.Grows new t')
    (hmore : ∀ p k start, new p k start → more p k start) : t.Grows more t' :=
  ⟨h.size_le, h.parents, h.kinds, h.starts, fun i hi hlt =>
    (h.fresh i hi hlt).imp fun _ hp => ⟨hp.1, hmore _ _ _ hp.2⟩⟩

theorem grows_setSpan {span : Span} (hstart : span.start = (t.span i).start) :
    t.Grows new (t.setSpan i span) := by
  refine ⟨Nat.le_of_eq (size_setSpan ..).symm, fun j _ => parent_setSpan .., fun j _ => ?_,
    fun j _ => ?_, fun j hj hlt => ?_⟩
  · exact congrArg NodeData.kind (data_setSpan ..)
  · rw [span_setSpan]
    split
    · next heq => rw [hstart, heq.1]
    · rfl
  · rw [size_setSpan] at hlt
    exact absurd hlt (Nat.not_lt_of_le hj)

theorem grows_setData {data : NodeData} (hkind : data.kind = t.kind i) :
    t.Grows new (t.setData i data) := by
  refine ⟨Nat.le_of_eq (size_setData ..).symm, fun j _ => parent_setData .., fun j _ => ?_,
    fun j _ => ?_, fun j hj hlt => ?_⟩
  · exact (keepsChildren_setData hkind).kinds j
  · rw [span_setData]
  · rw [size_setData] at hlt
    exact absurd hlt (Nat.not_lt_of_le hj)

theorem grows_sprout {data : NodeData} {span : Span} (hp : p < t.size)
    (hnew : new p data.kind span.start) : t.Grows new (t.sprout data span p) := by
  refine ⟨?_, fun j hj => ?_, fun j hj => ?_, fun j hj => ?_, fun j hj hlt => ?_⟩
  · rw [size_sprout]
    exact Nat.le_succ _
  · rw [parent_sprout hp, if_neg (Nat.ne_of_lt hj)]
  · rw [kind, data_sprout hp, if_neg (Nat.ne_of_lt hj), kind]
  · rw [span_sprout hp, if_neg (Nat.ne_of_lt hj)]
  · obtain rfl : j = t.size := by
      rw [size_sprout] at hlt
      omega
    refine ⟨p, by rw [parent_sprout hp, if_pos rfl], ?_⟩
    rw [kind, data_sprout hp, span_sprout hp, if_pos rfl, if_pos rfl]
    exact hnew

/-- What is above a node stays above it. -/
theorem Grows.under {j : Nat} (h : t.Grows new t') (hunder : t.Under i j) : t'.Under i j :=
  hunder.mono fun k _ hk => (h.parents k (lt_size_of_parent hk)).trans hk

/-- What is above an old node is what was above it. -/
theorem Grows.under_back {edge j : Nat} (h : t.Grows new t') (hshape : t.Shape edge)
    (hi : i < t.size) (hunder : t'.Under i j) : t.Under i j := by
  induction hunder with
  | refl => exact .refl t i
  | tail _ hparent ih =>
    exact ih.tail ((h.parents _ (Nat.lt_of_le_of_lt (ih.le hshape) hi)).symm.trans hparent)

/-- What has to be closed is a node of the tree. -/
theorem lt_size_of_structural (h : (t.kind i).isStructural = true) : i < t.size :=
  lt_size_of_kind fun hroot => by simp [hroot, NodeKind.isStructural] at h

end Tree

/-! ## Growing drafts -/

namespace TokenKind

/-- The tokens that neither name an element nor end what has to be closed. -/
def retains : TokenKind → Bool
  | startTag | startTagClose | startTagSelfClose | endTagClose | commentEnd | codeBlockEnd
  | mustacheEnd => false
  | _ => true

/-- What has to be closed and begins with the token. -/
def opened? : TokenKind → Option NodeKind
  | commentStart => some .comment
  | codeBlockStart => some .codeBlock
  | startTagOpen => some .element
  | mustacheStart => some .mustache
  | _ => none

end TokenKind

namespace Draft

variable {d d' d'' : Draft} {new : Nat → NodeKind → Nat → Prop} {data : NodeData} {span : Span}
  {t : Token}

/-- The draft grows; what has to be closed stays open, or is open if it is new; what is closed stays
as it is; and there is no report that something is not closed. -/
structure Holds (new : Nat → NodeKind → Nat → Prop) (d d' : Draft) : Prop where
  grows : d.tree.Grows new d'.tree
  stays : ∀ i, d.tree.Under d.current i → (d.tree.kind i).isStructural = true →
    d'.tree.Under d'.current i
  opened : ∀ i, d.tree.size ≤ i → i < d'.tree.size → (d'.tree.kind i).isStructural = true →
    d'.tree.Under d'.current i
  spares : d.Spares d'
  unclosed : d'.diagnostics.unclosed = d.diagnostics.unclosed

/-- The elements stay what they are, too, and nothing is known of a new one. -/
structure Retains (new : Nat → NodeKind → Nat → Prop) (d d' : Draft) : Prop
    extends Holds new d d' where
  elements : ∀ i, i < d.tree.size → (d'.tree.data i).element? = (d.tree.data i).element?
  begins : ∀ i e, d.tree.size ≤ i → (d'.tree.data i).element? = some e → e = {}

theorem begins_refl (d : Draft) {i : Nat} {e : Element} (hi : d.tree.size ≤ i)
    (he : (d.tree.data i).element? = some e) : e = {} := by
  simp [Tree.data_of_size_le hi, NodeData.element?] at he

theorem Holds.refl (d : Draft) : d.Holds new d :=
  ⟨.refl _, fun _ h _ => h, fun _ hi hlt => absurd hlt (Nat.not_lt_of_le hi), .refl d, rfl⟩

theorem Retains.refl (d : Draft) : d.Retains new d :=
  ⟨.refl d, fun _ _ => rfl, fun _ _ => begins_refl d⟩

theorem Holds.trans (h : d.Holds new d') (h' : d'.Holds new d'') : d.Holds new d'' := by
  refine ⟨h.grows.trans h'.grows, fun i hi hkind => ?_, fun i hi hlt hkind => ?_,
    h.spares.trans h'.spares, h'.unclosed.trans h.unclosed⟩
  · refine h'.stays i (h.stays i hi hkind) ?_
    rw [h.grows.kinds i (Tree.lt_size_of_structural hkind)]
    exact hkind
  · by_cases hmid : i < d'.tree.size
    · rw [h'.grows.kinds i hmid] at hkind
      exact h'.stays i (h.opened i hi hmid hkind) hkind
    · exact h'.opened i (Nat.le_of_not_lt hmid) hlt hkind

theorem Retains.trans (h : d.Retains new d') (h' : d'.Retains new d'') : d.Retains new d'' := by
  refine ⟨h.toHolds.trans h'.toHolds, fun i hi => ?_, fun i e hi he => ?_⟩
  · exact (h'.elements i (Nat.lt_of_lt_of_le hi h.grows.size_le)).trans (h.elements i hi)
  · by_cases hmid : i < d'.tree.size
    · exact h.begins i e hi ((h'.elements i hmid).symm.trans he)
    · exact h'.begins i e (Nat.le_of_not_lt hmid) he

theorem Holds.mono {more : Nat → NodeKind → Nat → Prop} (h : d.Holds new d')
    (hmore : ∀ p k start, new p k start → more p k start) : d.Holds more d' :=
  ⟨h.grows.mono hmore, h.stays, h.opened, h.spares, h.unclosed⟩

theorem Retains.mono {more : Nat → NodeKind → Nat → Prop} (h : d.Retains new d')
    (hmore : ∀ p k start, new p k start → more p k start) : d.Retains more d' :=
  ⟨h.toHolds.mono hmore, h.elements, h.begins⟩

/-- A node that was there before is open in the second draft only if it is so in the first. -/
theorem Spares.under_of_under {i : Nat} (h : d.Spares d') (hi : i < d.tree.size)
    (hunder : d'.tree.Under d'.current i) : d.tree.Under d.current i := by
  by_contra hoff
  exact (h i ⟨hi, hoff⟩).1.off hunder

/-- What has to be closed is closed by none of this. -/
theorem Holds.closed_of_closed {i : Nat} (h : d.Holds new d')
    (hkind : (d'.tree.kind i).isStructural = true) (hclosed : d'.Closed i) : d.Closed i := by
  by_cases hi : i < d.tree.size
  · refine ⟨hi, fun hunder => hclosed.off (h.stays i hunder ?_)⟩
    rw [← h.grows.kinds i hi]
    exact hkind
  · exact absurd (h.opened i (Nat.le_of_not_lt hi) hclosed.lt hkind) hclosed.off

/-- Of what has to be closed one node at most is new, if it is attached to an old one. -/
theorem Holds.new_unique {i j : Nat} (h : d.Holds new d') (hshape : d.tree.Shape d.current)
    (hold : ∀ p k start, new p k start → k.isStructural = true → p < d.tree.size)
    (hi : d.tree.size ≤ i) (hj : d.tree.size ≤ j) (hi' : (d'.tree.kind i).isStructural = true)
    (hj' : (d'.tree.kind j).isStructural = true) : i = j := by
  -- a new node that has to be closed stands above old nodes only
  have habove {i j : Nat} (hi : d.tree.size ≤ i) (hj : d.tree.size ≤ j)
      (hi' : (d'.tree.kind i).isStructural = true) (hunder : d'.tree.Under i j) : j = i := by
    obtain ⟨p, hp, hnew⟩ := h.grows.fresh i hi (Tree.lt_size_of_structural hi')
    refine (hunder.cases_parent hp).resolve_right fun hup => ?_
    have hlt := hold _ _ _ hnew hi'
    have hle := (h.grows.under_back hshape hlt hup).le hshape
    omega
  have hunder (i : Nat) (hi : d.tree.size ≤ i) (hi' : (d'.tree.kind i).isStructural = true) :=
    h.opened i hi (Tree.lt_size_of_structural hi') hi'
  have hright : Relator.RightUnique fun i p : Nat => d'.tree.parent i = some p :=
    fun _ _ _ hb hc => Option.some.inj (hb.symm.trans hc)
  rcases Relation.ReflTransGen.total_of_right_unique hright (hunder i hi hi') (hunder j hj hj')
    with hij | hji
  · exact (habove hi hj hi' hij).symm
  · exact habove hj hi hj' hji

/-! ### Ways of working on a draft -/

/-- What leaves the open node where it is, and adds nothing. -/
theorem holds_of_grows (hgrows : d.tree.Grows new d'.tree) (hsize : d'.tree.size = d.tree.size)
    (hcurrent : d'.current = d.current) (hspares : d.Spares d')
    (hunclosed : d'.diagnostics.unclosed = d.diagnostics.unclosed) : d.Holds new d' := by
  refine ⟨hgrows, fun i hi _ => ?_, fun i hi hlt => ?_, hspares, hunclosed⟩
  · rw [hcurrent]
    exact hgrows.under hi
  · rw [hsize] at hlt
    exact absurd hlt (Nat.not_lt_of_le hi)

/-- What leaves the elements alone, too. -/
theorem retains_of_grows (hgrows : d.tree.Grows new d'.tree) (hsize : d'.tree.size = d.tree.size)
    (helements : ∀ i, (d'.tree.data i).element? = (d.tree.data i).element?)
    (hcurrent : d'.current = d.current) (hspares : d.Spares d')
    (hunclosed : d'.diagnostics.unclosed = d.diagnostics.unclosed) : d.Retains new d' :=
  ⟨holds_of_grows hgrows hsize hcurrent hspares hunclosed, fun i _ => helements i,
    fun _ _ hi he => begins_refl d hi ((helements _).symm.trans he)⟩

/-- Nothing happens to the tree, and nothing is said of what is not closed. -/
theorem retains_of_tree (htree : d'.tree = d.tree) (hcurrent : d'.current = d.current)
    (hunclosed : d'.diagnostics.unclosed = d.diagnostics.unclosed) : d.Retains new d' :=
  retains_of_grows (htree ▸ .refl _) (by rw [htree]) (fun _ => by rw [htree]) hcurrent
    (spares_of_tree htree hcurrent) hunclosed

/-- Another fault is reported. -/
theorem retains_push {x : Diagnostic} (hx : x.isUnclosed = false) :
    d.Retains new { d with diagnostics := d.diagnostics.push x } :=
  retains_of_tree rfl rfl (Diagnostics.filter_push_other Diagnostic.byName_isUnclosed hx)

theorem retains_reportLexical (d : Draft) (error : LexError) (span : Span) :
    d.Retains new (d.reportLexical error span) := by
  refine retains_push ?_
  cases error <;> rfl

theorem retains_setSpan {i : Nat} (hi : d.tree.Under d.current i)
    (hstart : span.start = (d.tree.span i).start) :
    d.Retains new { d with tree := d.tree.setSpan i span } :=
  retains_of_grows (Tree.grows_setSpan hstart) (Tree.size_setSpan ..)
    (fun _ => congrArg NodeData.element? (Tree.data_setSpan ..)) rfl (spares_setSpan hi span) rfl

theorem retains_extend (d : Draft) (stop : Nat) : d.Retains new (d.extend stop) :=
  retains_setSpan (.refl _ _) rfl

/-- What is no element takes note of something. -/
theorem retains_setCurrent (hkind : data.kind = d.currentKind) (hother : data.kind ≠ .element) :
    d.Retains new (d.setCurrent data) := by
  have hold : d.currentData.element? = none :=
    NodeData.element?_eq_none
      (by rw [← show data.kind = d.currentData.kind from hkind]; exact hother)
  exact retains_of_grows (Tree.grows_setData hkind) (Tree.size_setData ..)
    (Tree.keepsElements_setData hold (NodeData.element?_eq_none hother)).elements rfl
    (spares_setCurrent d data) rfl

/-- A node that need not be closed is attached and left at once. -/
theorem retains_leaf (hshape : d.tree.Shape d.current) (hkind : data.kind.isStructural = false)
    (hnew : new d.current data.kind span.start) : d.Retains new (d.leaf data span) := by
  have hcurrent := hshape.edge_lt
  have hsize : (d.leaf data span).tree.size = d.tree.size + 1 := size_leaf d data span
  have hgrows : d.tree.Grows new (d.leaf data span).tree :=
    (Tree.grows_sprout hcurrent hnew).trans
      (retains_extend { d with tree := d.tree.sprout data span d.current } span.stop).grows
  have hdata (j : Nat) : (d.leaf data span).tree.data j
      = if j = d.tree.size then data else d.tree.data j :=
    (Tree.data_setSpan ..).trans (Tree.data_sprout hcurrent j)
  refine ⟨⟨hgrows, fun i hi _ => hgrows.under hi, fun i hi hlt hstructural => ?_,
    spares_leaf hshape data span, rfl⟩, fun i hi => ?_, fun i e hi he => ?_⟩
  · rw [Tree.kind, hdata, if_pos (by omega), hkind] at hstructural
    simp at hstructural
  · rw [hdata, if_neg (Nat.ne_of_lt hi)]
  · rw [hdata] at he
    split at he
    · rw [NodeData.element?_eq_some.1 he] at hkind
      simp [NodeData.kind, NodeKind.isStructural] at hkind
    · exact begins_refl d hi he

/-- A node is attached and opened. -/
theorem retains_openNode (hshape : d.tree.Shape d.current)
    (hnew : new d.current data.kind span.start)
    (helement : ∀ e, data.element? = some e → e = {}) : d.Retains new (d.openNode data span) := by
  have hcurrent := hshape.edge_lt
  have hsize : (d.openNode data span).tree.size = d.tree.size + 1 := size_leaf d data span
  obtain ⟨_, hparent⟩ := node_leaf data span hcurrent
  have hsprout : d.tree.Grows new (d.tree.sprout data span d.current) :=
    Tree.grows_sprout hcurrent hnew
  have hgrows : d.tree.Grows new (d.openNode data span).tree :=
    hsprout.trans
      (retains_extend { d with tree := d.tree.sprout data span d.current } span.stop).grows
  have hdata (j : Nat) : (d.openNode data span).tree.data j
      = if j = d.tree.size then data else d.tree.data j :=
    (Tree.data_setSpan ..).trans (Tree.data_sprout hcurrent j)
  have hup : (d.openNode data span).tree.Under d.tree.size d.current :=
    .of_parent hparent (.refl _ _)
  refine ⟨⟨hgrows, fun i hi _ => hup.trans (hgrows.under hi), fun i hi hlt _ => ?_,
    spares_openNode hshape data span, rfl⟩, fun i hi => ?_, fun i e hi he => ?_⟩
  · obtain rfl : i = d.tree.size := by omega
    exact .refl _ _
  · rw [hdata, if_neg (Nat.ne_of_lt hi)]
  · rw [hdata] at he
    split at he
    · exact helement e he
    · exact begins_refl d hi he

/-- A node that need not be closed is left. -/
theorem retains_ascend (hkind : d.currentKind.isStructural = false) : d.Retains new d.ascend := by
  unfold Draft.ascend
  split
  · exact .refl d
  · next p hp =>
    have hup : d.Retains new { d with current := p } := by
      refine ⟨⟨.refl _, fun i hi hstructural => ?_,
        fun i hi hlt => absurd hlt (Nat.not_lt_of_le hi),
        spares_moveTo (.of_parent hp (.refl _ _)), rfl⟩, fun _ _ => rfl,
        fun _ _ => begins_refl d⟩
      rcases hi.cases_parent hp with rfl | hunder
      · rw [show d.tree.kind d.current = d.currentKind from rfl, hkind] at hstructural
        simp at hstructural
      · exact hunder
    exact hup.trans (retains_setSpan (.refl _ _) rfl)

theorem retains_close (hkind : d.currentKind.isStructural = false) (stop : Nat) :
    d.Retains new (d.close stop) := by
  have hspan : d.Retains new { d with
      tree := d.tree.setSpan d.current
        ⟨(d.tree.span d.current).start, max stop (d.tree.span d.current).start⟩ } :=
    retains_setSpan (.refl _ _) rfl
  refine hspan.trans (retains_ascend ?_)
  exact (congrArg (fun data => (NodeData.kind data).isStructural)
    (Tree.data_setSpan ..)).trans hkind

/-! ### Rules -/

theorem retains_leaveAttribute (d : Draft) : d.Retains new d.leaveAttribute := by
  unfold Draft.leaveAttribute
  split
  · next a hdata =>
    exact retains_ascend (by rw [show d.currentKind = _ from Tree.kind_of_data hdata]; rfl)
  · next a hdata =>
    exact retains_ascend (by rw [show d.currentKind = _ from Tree.kind_of_data hdata]; rfl)
  · exact .refl d

theorem retains_attributeValue (d : Draft) (span : Span) :
    d.Retains new (d.attributeValue span) := by
  unfold Draft.attributeValue
  dsimp only
  split
  · next a hdata =>
    refine (retains_setCurrent ?_ (by simp [NodeData.kind])).trans (retains_extend _ _)
    exact (Tree.kind_of_data hdata).symm
  · next a hdata =>
    refine (retains_setCurrent ?_ (by simp [NodeData.kind])).trans (retains_extend _ _)
    exact (Tree.kind_of_data hdata).symm
  · exact .refl d

/-- A duplicate is reported as what it is. -/
theorem duplicateOf?_cases {sibling data : NodeData} {error : ParseError}
    (h : duplicateOf? sibling data = some error) :
    error = .attributeDuplicate ∨ error = .commandDuplicate := by
  unfold duplicateOf? at h
  split at h
  · split at h
    · exact .inl (Option.some.inj h).symm
    · simp at h
  · split at h
    · exact .inr (Option.some.inj h).symm
    · simp at h
  · simp at h

theorem retains_attributeName (hshape : d.tree.Shape d.current) (helement : data.element? = none)
    (hnew : new d.leaveAttribute.current data.kind t.span.start) :
    d.Retains new (d.attributeName t data) := by
  have hopen : d.Retains new (d.leaveAttribute.openNode data t.span) :=
    (retains_leaveAttribute d).trans (retains_openNode (shape_leaveAttribute hshape) hnew
      fun e he => by simp [helement] at he)
  unfold Draft.attributeName
  dsimp only
  split
  · next error hduplicate =>
    obtain ⟨sibling, _, hsibling⟩ := List.exists_of_findSome?_eq_some hduplicate
    refine hopen.trans (retains_push ?_)
    rcases duplicateOf?_cases hsibling with rfl | rfl <;> rfl
  · exact hopen

theorem retains_mustacheContent (d : Draft) (t : Token) : d.Retains new (d.mustacheContent t) := by
  unfold Draft.mustacheContent
  refine Retains.trans ?_ (retains_extend _ _)
  split
  · next hdata =>
    exact retains_setCurrent (Tree.kind_of_data hdata).symm (by simp [NodeData.kind])
  · exact .refl d

theorem retains_codeBlockAttribute (d : Draft) (t : Token) :
    d.Retains new (d.codeBlockAttribute t) := by
  unfold Draft.codeBlockAttribute
  split
  · next block hdata =>
    have hset (block' : CodeBlock) : d.Retains new (d.setCurrent (.codeBlock block')) :=
      retains_setCurrent (Tree.kind_of_data hdata).symm (by simp [NodeData.kind])
    refine Retains.trans ?_ (retains_extend _ _)
    dsimp only
    split
    · exact hset _
    · split
      · exact (hset _).trans (retains_push rfl)
      · exact hset _
  · exact .refl d

theorem retains_codeBlockContent (d : Draft) (t : Token) :
    d.Retains new (d.codeBlockContent t) := by
  unfold Draft.codeBlockContent
  refine Retains.trans ?_ (retains_extend _ _)
  split
  · next hdata =>
    exact retains_setCurrent (Tree.kind_of_data hdata).symm (by simp [NodeData.kind])
  · exact .refl d

theorem retains_paragraphEnd (d : Draft) (t : Token) : d.Retains new (d.paragraphEnd t) := by
  unfold Draft.paragraphEnd
  split
  · next hkind => exact retains_close (by rw [hkind]; rfl) _
  · exact .refl d

/-- A text of prose may open a paragraph that begins with it. -/
theorem retains_proseText (hshape : d.tree.Shape d.current)
    (hnew : ∀ p k, k = NodeKind.paragraph ∨ k = .text → new p k t.span.start) :
    d.Retains new (d.proseText t) := by
  unfold Draft.proseText
  dsimp only
  split
  · exact retains_leaf hshape rfl (hnew _ _ (.inr rfl))
  · have hopen : d.Retains new (d.openNode .paragraph t.span) :=
      retains_openNode hshape (hnew _ _ (.inl rfl)) fun e he => by simp [NodeData.element?] at he
    exact hopen.trans (retains_leaf (shape_openNode hshape _ _) rfl (hnew _ _ (.inr rfl)))

theorem retains_blockExpression (hshape : d.tree.Shape d.current)
    (hnew : new d.current .expressionStatement t.span.start) :
    d.Retains new (d.blockExpression t) := by
  unfold Draft.blockExpression
  dsimp only
  split
  · exact retains_leaf hshape rfl hnew
  · exact retains_leaf hshape rfl hnew

/-! ### Tokens -/

/-- What is known of a node that a token attaches, by its parent, its kind and its start. -/
structure NewBy (d : Draft) (t : Token) (p : Nat) (k : NodeKind) (start : Nat) : Prop where
  start : start = t.span.start
  /-- Attributes are attached by their names, to the element. -/
  named : k = .attr ∨ k = .directive →
    (t.kind = .attributeName ∨ t.kind = .directiveName) ∧ p = d.leaveAttribute.current
  /-- What has to be closed is attached to a node that was there before. -/
  opened : k.isStructural = true → t.kind.opened? = some k ∧ p < d.tree.size

/-- **A token that neither names an element nor ends what has to be closed** only adds to the
draft. -/
theorem retains_build (hshape : d.tree.Shape d.current) (hkind : t.kind.retains = true) :
    d.Retains (d.NewBy t) (d.build t) := by
  -- a leaf is neither an attribute nor does it have to be closed
  have hplain {p : Nat} {k : NodeKind} (hk : k.isLeaf = true ∨ k = .paragraph) :
      d.NewBy t p k t.span.start := by
    rcases hk with hk | rfl
    · refine ⟨rfl, fun h => ?_, fun h => ?_⟩
      · rcases h with rfl | rfl <;> simp [NodeKind.isLeaf] at hk
      · cases k <;> simp [NodeKind.isLeaf, NodeKind.isStructural] at hk h
    · exact ⟨rfl, fun h => by simp at h, fun h => by simp [NodeKind.isStructural] at h⟩
  cases hk : t.kind <;> simp only [hk, TokenKind.retains, Bool.false_eq_true] at hkind <;>
    simp only [Draft.build, hk]
  case whitespace | unknown | eos => exact .refl d
  case commentStart | codeBlockStart | mustacheStart =>
    exact retains_openNode hshape
      ⟨rfl, fun h => by simp [NodeData.kind] at h, fun _ => ⟨by rw [hk]; rfl, hshape.edge_lt⟩⟩
      fun e he => by simp [NodeData.element?] at he
  case importStatement | jsxExpression | rawText =>
    exact retains_leaf hshape rfl (hplain (.inl rfl))
  case blockExpression => exact retains_blockExpression hshape (hplain (.inl rfl))
  case text =>
    split
    · unfold Draft.templateText
      split
      · exact .refl d
      · exact retains_leaf hshape rfl (hplain (.inl rfl))
    · refine retains_proseText hshape fun p k hk => hplain ?_
      rcases hk with rfl | rfl
      · exact .inr rfl
      · exact .inl rfl
  case commentContent =>
    refine Retains.trans ?_ (retains_extend _ _)
    split
    · next hdata =>
      exact retains_setCurrent (Tree.kind_of_data hdata).symm (by simp [NodeData.kind])
    · exact .refl d
  case paragraphEnd => exact retains_paragraphEnd d t
  case codeBlockAttribute => exact retains_codeBlockAttribute d t
  case codeBlockContent => exact retains_codeBlockContent d t
  case startTagOpen =>
    have hleave : d.Retains Tree.NoNode d.leaveAttribute := retains_leaveAttribute d
    have hshape' := shape_leaveAttribute hshape
    exact (retains_leaveAttribute d).trans (retains_openNode hshape'
      ⟨rfl, fun h => by simp [NodeData.kind] at h,
        fun _ => ⟨by rw [hk]; rfl, hleave.grows.size_eq ▸ hshape'.edge_lt⟩⟩
      fun e he => (Option.some.inj he).symm)
  case endTagOpen => exact (retains_leaveAttribute d).trans (retains_of_tree rfl rfl rfl)
  case endTag => exact retains_of_tree rfl rfl rfl
  case attributeName | directiveName =>
    refine retains_attributeName hshape rfl ⟨rfl, fun _ => ⟨by simp [hk], rfl⟩, fun h => ?_⟩
    simp [NodeData.kind, NodeKind.isStructural] at h
  case attributeDelimiter | attributeMark => exact retains_extend d _
  case attributeValue => exact retains_attributeValue d _
  case mustacheContent => exact retains_mustacheContent d t

/-- The fault of a token comes after what the token does. -/
theorem retains_fault (d : Draft) (t : Token) : (d.build t).Retains new (d.takeToken t) := by
  unfold Draft.takeToken
  split
  · exact retains_reportLexical _ _ _
  · exact .refl _

theorem retains_takeToken (hshape : d.tree.Shape d.current) (hkind : t.kind.retains = true) :
    d.Retains (d.NewBy t) (d.takeToken t) :=
  (retains_build hshape hkind).trans (retains_fault d t)

end Draft

end HybridMarkup
