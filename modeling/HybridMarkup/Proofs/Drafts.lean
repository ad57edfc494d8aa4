/-
What every draft of a syntax tree satisfies, and what each way of working on it does.

`Draft.Stands` is the invariant. It says that the tree has its shape with the open node on the
right edge, which kinds of nodes are open, that nodes only stand below nodes that may have content,
and that all spans and texts in the tree are cut out of the document. A draft is only ever worked
on in a few ways: a node is attached, and perhaps opened; what a node stands for changes, but not
its kind; the end of a node moves; a node is closed. Each has one lemma here, and what a token does
to a draft is read off by putting them together.

The invariant also carries along whatever one wants to gather from the nodes of the tree in their
order (`Gather`). A node contributes to it when it is attached, so the contributions come in the
order of the tokens; a node that is attached before its content is read contributes when it is
filled, which is the same as long as it is still the newest.
-/
import Mathlib.Data.List.Basic
import HybridMarkup.Parse
import HybridMarkup.Proofs.Copies
import HybridMarkup.Proofs.TreeShape

set_option autoImplicit false

namespace HybridMarkup

open Text

/-! ## What a node may be -/

/-- Nodes that are never open. -/
def NodeKind.isLeaf : NodeKind → Bool
  | text | importStatement | jsxStatement | expressionStatement | rawText => true
  | _ => false

/-- Nodes that are opened below the root. -/
def NodeKind.opens (kind : NodeKind) : Bool := !kind.isLeaf && kind != .root

/-- Nodes that have no text of their own that could be gathered. -/
def NodeKind.isSilent : NodeKind → Bool
  | root | comment | paragraph | element | attr => true
  | _ => false

/-- Nodes that may have others below them. -/
def Dialect.nests (dialect : Dialect) (kind : NodeKind) : Bool :=
  match dialect with
  | .template => kind == .root || kind == .element || kind == .attr
  | .markdown | .mdx => kind == .root || kind == .paragraph

/-- The value of an attribute is what its span cuts out. -/
def ValueSound (text : Text) (value : Option Text) (valueSpan : Option Span) : Prop :=
  ∀ span, valueSpan = some span → span.Cuts text ∧ value = some (slice text span)

/-- The texts and spans of what a node stands for are cut out of the document. -/
def NodeData.Sound (text : Text) (span : Span) : NodeData → Prop
  | .codeBlock b =>
    b.contentSpan.Cuts text ∧ b.text = slice text b.contentSpan ∧
      (⟨span.start, b.openerEnd⟩ : Span).Cuts text
  | .expressionStatement s inner _ => s = slice text inner ∧ Braces text span inner
  | .attr a => ValueSound text a.value a.valueSpan
  | .directive a => ValueSound text a.value a.valueSpan
  | .mustache s inner => inner.Cuts text ∧ s = slice text inner
  | .rawText s => s = slice text span
  | _ => True

/-- Where a node ends does not matter to what it stands for, unless it is a leaf. -/
theorem NodeData.Sound.of_start {text : Text} {span span' : Span} {data : NodeData}
    (h : data.Sound text span) (hleaf : data.kind.isLeaf = false)
    (hstart : span'.start = span.start) : data.Sound text span' := by
  cases data <;> simp_all [NodeData.Sound, NodeData.kind, NodeKind.isLeaf]

/-! ## Gathering from the nodes -/

/-- Something to be gathered from the nodes of a tree. It may not depend on where a node ends that
can still grow, and there are nodes from which nothing is gathered. -/
structure Gather (α : Type) where
  /-- What a node contributes, by its number, its parent, and what and where it is. -/
  of : Nat → Option Nat → NodeData → Span → List α
  silent : ∀ i p data span, data.kind.isSilent = true → of i p data span = []
  steady : ∀ i p data span span', data.kind.isLeaf = false → of i p data span = of i p data span'

namespace Tree

variable {α : Type} {t t' : Tree}

/-- The contribution of a node. -/
def gatherAt (t : Tree) (g : Gather α) (i : Nat) : List α :=
  g.of i (t.parent i) (t.data i) (t.span i)

/-- All contributions, in the order of the nodes. -/
def gather (t : Tree) (g : Gather α) : List α := (List.range t.size).flatMap (t.gatherAt g)

theorem gather_congr (g : Gather α) (hsize : t'.size = t.size)
    (h : ∀ j, j < t.size → t'.gatherAt g j = t.gatherAt g j) : t'.gather g = t.gather g := by
  unfold gather
  rw [hsize]
  exact List.flatMap_congr fun j hj => h j (List.mem_range.1 hj)

/-- The contribution of the newest node comes last. -/
theorem gather_of_last (g : Gather α) {n : Nat} (h : t.size = n + 1) :
    t.gather g = (List.range n).flatMap (t.gatherAt g) ++ t.gatherAt g n := by
  rw [gather, h, List.range_succ, List.flatMap_append]
  simp

theorem gather_sprout (g : Gather α) {p : Nat} (hp : p < t.size) (data : NodeData) (span : Span) :
    (t.sprout data span p).gather g = t.gather g ++ g.of t.size (some p) data span := by
  have hold : (List.range t.size).flatMap ((t.sprout data span p).gatherAt g) = t.gather g := by
    refine List.flatMap_congr fun j hj => ?_
    have hne : j ≠ t.size := Nat.ne_of_lt (List.mem_range.1 hj)
    rw [gatherAt, parent_sprout hp, data_sprout hp, span_sprout hp, if_neg hne, if_neg hne,
      if_neg hne]
    rfl
  rw [gather_of_last g (size_sprout t data span p), gatherAt, parent_sprout hp, data_sprout hp,
    span_sprout hp, if_pos rfl, if_pos rfl, if_pos rfl, hold]

theorem gather_setSpan (g : Gather α) {i : Nat} (hleaf : (t.kind i).isLeaf = false) (span : Span) :
    (t.setSpan i span).gather g = t.gather g := by
  refine gather_congr g (size_setSpan ..) fun j _ => ?_
  rw [gatherAt, parent_setSpan, data_setSpan, span_setSpan]
  split
  · next h =>
    obtain ⟨rfl, _⟩ := h
    exact g.steady _ _ _ _ _ hleaf
  · rfl

theorem gather_setData (g : Gather α) {i : Nat} {data : NodeData}
    (hsame : g.of i (t.parent i) data (t.span i) = t.gatherAt g i) :
    (t.setData i data).gather g = t.gather g := by
  refine gather_congr g (size_setData ..) fun j _ => ?_
  rw [gatherAt, parent_setData, data_setData, span_setData]
  split
  · next h =>
    obtain ⟨rfl, _⟩ := h
    exact hsame
  · rfl

/-- The newest node is filled. -/
theorem gather_setData_last (g : Gather α) {i : Nat} (hlast : i + 1 = t.size) (data : NodeData)
    {xs : List α} (h : t.gather g = xs ++ t.gatherAt g i) :
    (t.setData i data).gather g = xs ++ g.of i (t.parent i) data (t.span i) := by
  -- the newest node contributes last, so what it contributed before can be cancelled
  rw [gather_of_last g hlast.symm] at h
  have hxs := List.append_cancel_right h
  rw [gather_of_last g (t := t.setData i data) (n := i) (by rw [size_setData, hlast]), ← hxs]
  congr 1
  · refine List.flatMap_congr fun j hj => ?_
    have hj := List.mem_range.1 hj
    rw [gatherAt, parent_setData, data_setData, span_setData, if_neg fun h => by omega]
    rfl
  · rw [gatherAt, parent_setData, data_setData, span_setData, if_pos ⟨rfl, by omega⟩]

end Tree

/-! ## The invariant -/

namespace Draft

section Stands

variable {α : Type} {g : Gather α} {dialect : Dialect} {text : Text} {pos : Nat}
  {path : List NodeKind} {xs : List α} {d : Draft}

/-- A draft in good standing: nothing in it begins behind `pos`, the open nodes are of the kinds in
`path`, the open one first, and `xs` is what `g` gathers. -/
structure Stands (g : Gather α) (dialect : Dialect) (text : Text) (pos : Nat)
    (path : List NodeKind) (xs : List α) (d : Draft) : Prop where
  text_eq : d.tree.text = text
  dialect_eq : d.tree.dialect = dialect
  endTag : isBoundary d.endTagStart text = true
  shape : d.tree.Shape d.current
  chain : d.tree.Chain d.current path
  open_kinds : ∀ k ∈ path, k.isLeaf = false
  nests : ∀ i p : Nat, d.tree.parent i = some p →
    dialect.nests (d.tree.kind p) = true ∧ (d.tree.kind p = .root → p = Tree.root)
  cuts : ∀ i, i < d.tree.size → (d.tree.span i).Cuts text ∧ (d.tree.span i).start ≤ pos
  sound : ∀ i, i < d.tree.size → (d.tree.data i).Sound text (d.tree.span i)
  gathered : d.tree.gather g = xs

theorem Stands.current_lt (h : d.Stands g dialect text pos path xs) : d.current < d.tree.size :=
  h.shape.edge_lt

theorem Stands.kind_eq {k : NodeKind} {ks : List NodeKind}
    (h : d.Stands g dialect text pos (k :: ks) xs) : d.currentKind = k :=
  h.chain.kind_eq

theorem Stands.current_not_leaf (h : d.Stands g dialect text pos path xs) :
    d.currentKind.isLeaf = false :=
  h.open_kinds _ h.chain.kind_mem

theorem Stands.parent_lt (h : d.Stands g dialect text pos path xs) (i p : Nat)
    (hp : d.tree.parent i = some p) : p < i :=
  h.shape.parent_lt hp

/-- What began before may end with the token that is read. -/
theorem Stands.cuts_to (h : d.Stands g dialect text pos path xs) {i stop : Nat}
    (hi : i < d.tree.size) (hstop : isBoundary stop text = true) (hle : pos ≤ stop) :
    (⟨(d.tree.span i).start, stop⟩ : Span).Cuts text :=
  (h.cuts i hi).1.stretch hstop (Nat.le_trans (h.cuts i hi).2 hle)

/-- What the newest node contributes stands last. -/
theorem Stands.split_last (h : d.Stands g dialect text pos path xs)
    (hlast : d.current + 1 = d.tree.size) : ∃ ys, xs = ys ++ d.tree.gatherAt g d.current :=
  ⟨_, h.gathered.symm.trans (Tree.gather_of_last g hlast.symm)⟩

/-- Reading on does no harm. -/
theorem Stands.mono {pos' : Nat} (h : d.Stands g dialect text pos path xs) (hle : pos ≤ pos') :
    d.Stands g dialect text pos' path xs :=
  { h with cuts := fun i hi => ⟨(h.cuts i hi).1, Nat.le_trans (h.cuts i hi).2 hle⟩ }

/-- What is reported, and what is remembered of an end tag, is no matter of the tree. -/
theorem Stands.of_tree {d' : Draft} (h : d.Stands g dialect text pos path xs)
    (htree : d'.tree = d.tree) (hcurrent : d'.current = d.current)
    (hend : isBoundary d'.endTagStart text = true) : d'.Stands g dialect text pos path xs := by
  have hshape := h.shape
  have hchain := h.chain
  rw [← htree, ← hcurrent] at hshape hchain
  exact ⟨htree ▸ h.text_eq, htree ▸ h.dialect_eq, hend, hshape, hchain, h.open_kinds,
    htree ▸ h.nests, htree ▸ h.cuts, htree ▸ h.sound, htree ▸ h.gathered⟩

/-- Another node of the right edge is opened. -/
theorem Stands.moveTo {i : Nat} {path' : List NodeKind} (h : d.Stands g dialect text pos path xs)
    (hshape : d.tree.Shape i) (hchain : d.tree.Chain i path')
    (hopen : ∀ k ∈ path', k.isLeaf = false) :
    ({ d with current := i } : Draft).Stands g dialect text pos path' xs :=
  ⟨h.text_eq, h.dialect_eq, h.endTag, hshape, hchain, hopen, h.nests, h.cuts, h.sound, h.gathered⟩

theorem Stands.report (h : d.Stands g dialect text pos path xs) (error : ParseError)
    (span : Span) : (d.report error span).Stands g dialect text pos path xs :=
  h.of_tree rfl rfl h.endTag

theorem Stands.reportLexical (h : d.Stands g dialect text pos path xs) (error : LexError)
    (span : Span) : (d.reportLexical error span).Stands g dialect text pos path xs :=
  h.of_tree rfl rfl h.endTag

/-- What holds of a draft holds of it after a change of a node that keeps its kind. -/
theorem Stands.setData_of {i : Nat} {data : NodeData} {ys : List α}
    (h : d.Stands g dialect text pos path xs) (hkind : data.kind = d.tree.kind i)
    (hsound : data.Sound text (d.tree.span i)) (hgather : (d.tree.setData i data).gather g = ys) :
    (d.setData i data).Stands g dialect text pos path ys := by
  have hkinds (j : Nat) : (d.tree.setData i data).kind j = d.tree.kind j := by
    rw [Tree.kind, Tree.data_setData]
    split
    · next heq => rw [← heq.1, hkind]
    · rfl
  constructor
  · exact h.text_eq
  · exact h.dialect_eq
  · exact h.endTag
  · exact h.shape.congr (Tree.size_setData ..) (fun _ => Tree.parent_setData ..)
      fun _ => Tree.children_setData ..
  · exact h.chain.congr h.current_lt (fun j _ => hkinds j) (fun j _ => Tree.parent_setData ..)
      h.parent_lt
  · exact h.open_kinds
  · intro j p hp
    rw [show (d.setData i data).tree = d.tree.setData i data from rfl] at hp ⊢
    rw [Tree.parent_setData] at hp
    rw [hkinds]
    exact h.nests j p hp
  · intro j hj
    rw [show (d.setData i data).tree = d.tree.setData i data from rfl] at hj ⊢
    rw [Tree.size_setData] at hj
    rw [Tree.span_setData]
    exact h.cuts j hj
  · intro j hj
    rw [show (d.setData i data).tree = d.tree.setData i data from rfl] at hj ⊢
    rw [Tree.size_setData] at hj
    rw [Tree.span_setData, Tree.data_setData]
    split
    · next heq => exact heq.1 ▸ hsound
    · exact h.sound j hj
  · exact hgather

/-- A change that nothing is gathered from. -/
theorem Stands.setData (h : d.Stands g dialect text pos path xs) {i : Nat} (data : NodeData)
    (hkind : data.kind = d.tree.kind i) (hsound : data.Sound text (d.tree.span i))
    (hsame : g.of i (d.tree.parent i) data (d.tree.span i) = d.tree.gatherAt g i) :
    (d.setData i data).Stands g dialect text pos path xs :=
  h.setData_of hkind hsound ((Tree.gather_setData g hsame).trans h.gathered)

/-- A change of a node from which nothing is gathered. -/
theorem Stands.setSilent (h : d.Stands g dialect text pos path xs) {i : Nat} (data : NodeData)
    (hkind : data.kind = d.tree.kind i) (hsilent : data.kind.isSilent = true)
    (hsound : data.Sound text (d.tree.span i)) :
    (d.setData i data).Stands g dialect text pos path xs := by
  have hold : (d.tree.data i).kind.isSilent = true := by rw [← hsilent, hkind]; rfl
  refine h.setData data hkind hsound ?_
  rw [Tree.gatherAt, g.silent _ _ _ _ hsilent, g.silent _ _ _ _ hold]

/-- **The newest node is filled**, and contributes now. -/
theorem Stands.fill (h : d.Stands g dialect text pos path xs)
    (hlast : d.current + 1 = d.tree.size) (data : NodeData) (hkind : data.kind = d.currentKind)
    (hsound : data.Sound text (d.tree.span d.current)) {ys : List α}
    (hxs : xs = ys ++ d.tree.gatherAt g d.current) :
    (d.setCurrent data).Stands g dialect text pos path
      (ys ++ g.of d.current (d.tree.parent d.current) data (d.tree.span d.current)) := by
  have hgathered := h.gathered
  rw [hxs] at hgathered
  exact h.setData_of hkind hsound (Tree.gather_setData_last g hlast data hgathered)

/-- The end of a node moves that can still grow. -/
theorem Stands.setSpan {i stop : Nat} (h : d.Stands g dialect text pos path xs)
    (hi : i < d.tree.size) (hleaf : (d.tree.kind i).isLeaf = false) (hstop : isBoundary stop text = true)
    (hle : (d.tree.span i).start ≤ stop) :
    ({ d with tree := d.tree.setSpan i ⟨(d.tree.span i).start, stop⟩ } : Draft).Stands g dialect
      text pos path xs := by
  have hkinds (j : Nat) (span : Span) : (d.tree.setSpan i span).kind j = d.tree.kind j := by
    rw [Tree.kind, Tree.data_setSpan]
    rfl
  constructor
  · exact h.text_eq
  · exact h.dialect_eq
  · exact h.endTag
  · exact h.shape.congr (Tree.size_setSpan ..) (fun _ => Tree.parent_setSpan ..)
      fun _ => Tree.children_setSpan ..
  · exact h.chain.congr h.current_lt (fun j _ => hkinds j _) (fun j _ => Tree.parent_setSpan ..)
      h.parent_lt
  · exact h.open_kinds
  · intro j p hp
    simp only [Tree.parent_setSpan] at hp
    rw [hkinds]
    exact h.nests j p hp
  · intro j hj
    simp only [Tree.size_setSpan] at hj
    simp only [Tree.span_setSpan]
    split
    · exact ⟨(h.cuts i hi).1.stretch hstop hle, (h.cuts i hi).2⟩
    · exact h.cuts j hj
  · intro j hj
    simp only [Tree.size_setSpan] at hj
    simp only [Tree.span_setSpan, Tree.data_setSpan]
    split
    · next heq => exact heq.1 ▸ (h.sound i hi).of_start hleaf rfl
    · exact h.sound j hj
  · exact (Tree.gather_setSpan g hleaf _).trans h.gathered

theorem Stands.grow {i stop : Nat} (h : d.Stands g dialect text pos path xs) (hi : i < d.tree.size)
    (hleaf : (d.tree.kind i).isLeaf = false) (hstop : isBoundary stop text = true) :
    (d.grow i stop).Stands g dialect text pos path xs := by
  have hcuts := (h.cuts i hi).1
  refine h.setSpan hi hleaf (Span.isBoundary_max hcuts.stop hstop) ?_
  exact Nat.le_trans hcuts.ordered (Nat.le_max_left _ _)

theorem Stands.extend {stop : Nat} (h : d.Stands g dialect text pos path xs)
    (hstop : isBoundary stop text = true) : (d.extend stop).Stands g dialect text pos path xs :=
  h.grow h.current_lt h.current_not_leaf hstop

/-- A new child of the open node. -/
theorem Stands.sprout {k : NodeKind} {span : Span}
    (h : d.Stands g dialect text pos (k :: path) xs) (hnests : dialect.nests k = true)
    (data : NodeData) (hcuts : span.Cuts text) (hpos : span.start ≤ pos)
    (hsound : data.Sound text span) :
    ({ d with tree := d.tree.sprout data span d.current } : Draft).Stands g dialect text pos
      (k :: path) (xs ++ g.of d.tree.size (some d.current) data span) := by
  have hcurrent := h.current_lt
  have hold (j : Nat) (hj : j < d.tree.size) :
      (d.tree.sprout data span d.current).kind j = d.tree.kind j := by
    rw [Tree.kind, Tree.data_sprout hcurrent, if_neg (Nat.ne_of_lt hj)]
    rfl
  constructor
  · unfold Tree.sprout Tree.attach Tree.detach
    split
    · exact h.text_eq
    · next hparent => rw [Tree.node_alloc, if_pos rfl] at hparent; simp at hparent
  · unfold Tree.sprout Tree.attach Tree.detach
    split
    · exact h.dialect_eq
    · next hparent => rw [Tree.node_alloc, if_pos rfl] at hparent; simp at hparent
  · exact h.endTag
  · exact h.shape.sprout data span
  · refine h.chain.congr hcurrent hold (fun j hj => ?_) h.parent_lt
    rw [Tree.parent_sprout hcurrent, if_neg (Nat.ne_of_lt hj)]
  · exact h.open_kinds
  · intro j p hp
    simp only [Tree.parent_sprout hcurrent] at hp
    split at hp
    · rw [Option.some.injEq] at hp
      subst hp
      rw [hold _ hcurrent, show d.tree.kind d.current = k from h.kind_eq]
      exact ⟨hnests, fun hroot => (hroot ▸ h.chain).eq_root_of_kind⟩
    · have hpj := h.parent_lt j p hp
      have hj := Tree.lt_size_of_parent hp
      rw [hold p (Nat.lt_trans hpj hj)]
      exact h.nests j p hp
  · intro j hj
    simp only [Tree.size_sprout] at hj
    simp only [Tree.span_sprout hcurrent]
    split
    · exact ⟨hcuts, hpos⟩
    · exact h.cuts j (by omega)
  · intro j hj
    simp only [Tree.size_sprout] at hj
    simp only [Tree.span_sprout hcurrent, Tree.data_sprout hcurrent]
    split
    · exact hsound
    · exact h.sound j (by omega)
  · rw [← h.gathered]
    exact Tree.gather_sprout g hcurrent data span

/-- A node that takes no children. -/
theorem Stands.leaf {k : NodeKind} {span : Span}
    (h : d.Stands g dialect text pos (k :: path) xs) (hnests : dialect.nests k = true)
    (data : NodeData) (hcuts : span.Cuts text) (hpos : span.start ≤ pos)
    (hsound : data.Sound text span) :
    (d.leaf data span).Stands g dialect text pos (k :: path)
      (xs ++ g.of d.tree.size (some d.current) data span) :=
  (h.sprout hnests data hcuts hpos hsound).extend hcuts.stop

theorem size_leaf (d : Draft) (data : NodeData) (span : Span) :
    (d.leaf data span).tree.size = d.tree.size + 1 := by
  show ((d.tree.sprout data span d.current).setSpan _ _).size = _
  rw [Tree.size_setSpan, Tree.size_sprout]

theorem node_leaf (data : NodeData) (span : Span) (hcurrent : d.current < d.tree.size) :
    (d.leaf data span).tree.data d.tree.size = data ∧
      (d.leaf data span).tree.parent d.tree.size = some d.current := by
  show ((d.tree.sprout data span d.current).setSpan _ _).data _ = _ ∧
    ((d.tree.sprout data span d.current).setSpan _ _).parent _ = _
  rw [Tree.data_setSpan, Tree.data_sprout hcurrent, if_pos rfl, Tree.parent_setSpan,
    Tree.parent_sprout hcurrent, if_pos rfl]
  exact ⟨rfl, rfl⟩

/-- A node that is open from now on. -/
theorem Stands.openNode {k k' : NodeKind} {span : Span}
    (h : d.Stands g dialect text pos (k :: path) xs) (hnests : dialect.nests k = true)
    (data : NodeData) (hkind : data.kind = k') (hopens : k'.opens = true)
    (hcuts : span.Cuts text) (hpos : span.start ≤ pos) (hsound : data.Sound text span) :
    (d.openNode data span).Stands g dialect text pos (k' :: k :: path)
      (xs ++ g.of d.tree.size (some d.current) data span) := by
  have hopen : k'.isLeaf = false ∧ k' ≠ .root := by simpa [NodeKind.opens] using hopens
  have hleaf := h.leaf hnests data hcuts hpos hsound
  obtain ⟨hdata, hparent⟩ := node_leaf data span h.current_lt
  have hshape : (d.leaf data span).tree.Shape d.tree.size := by
    -- the newest node is on the right edge of any tree that has its shape
    have hlast := hleaf.shape.last
    rwa [size_leaf, Nat.add_sub_cancel] at hlast
  have hchain : (d.leaf data span).tree.Chain d.tree.size (k' :: k :: path) :=
    .under (by rw [Tree.kind, hdata, hkind]) hopen.2 hparent hleaf.chain
  -- the node that is opened is the one that was just attached
  refine hleaf.moveTo hshape hchain fun kind hmem => ?_
  rcases List.mem_cons.1 hmem with rfl | hmem
  · exact hopen.1
  · exact hleaf.open_kinds kind hmem

/-- A node that has just been opened is the newest one. -/
theorem openNode_last (d : Draft) (data : NodeData) (span : Span) :
    (d.openNode data span).current + 1 = (d.openNode data span).tree.size :=
  (size_leaf d data span).symm

theorem currentData_openNode (data : NodeData) (span : Span) (hcurrent : d.current < d.tree.size) :
    (d.openNode data span).currentData = data :=
  (node_leaf data span hcurrent).1

theorem currentData_setCurrent (data : NodeData) (hcurrent : d.current < d.tree.size) :
    (d.setCurrent data).currentData = data := by
  show (d.tree.setData d.current data).data d.current = data
  rw [Tree.data_setData, if_pos ⟨rfl, hcurrent⟩]

@[simp] theorem currentData_extend (d : Draft) (stop : Nat) :
    (d.extend stop).currentData = d.currentData :=
  Tree.data_setSpan ..

@[simp] theorem size_setCurrent (d : Draft) (data : NodeData) :
    (d.setCurrent data).tree.size = d.tree.size :=
  Tree.size_setData ..

@[simp] theorem size_extend (d : Draft) (stop : Nat) : (d.extend stop).tree.size = d.tree.size :=
  Tree.size_setSpan ..

/-- Back to the parent. -/
theorem Stands.ascend {k k' : NodeKind} (h : d.Stands g dialect text pos (k :: k' :: path) xs) :
    d.ascend.Stands g dialect text pos (k' :: path) xs := by
  obtain ⟨p, hparent, hchain⟩ := h.chain.up
  have hopen (kind : NodeKind) (hmem : kind ∈ k' :: path) : kind.isLeaf = false :=
    h.open_kinds kind (List.mem_cons_of_mem _ hmem)
  have hup := h.moveTo (h.shape.up hparent) hchain hopen
  have hstop := (h.cuts d.current h.current_lt).1.stop
  unfold Draft.ascend
  rw [hparent]
  exact hup.grow hup.current_lt (hopen _ hchain.kind_mem) hstop

/-- The open node ends, and its parent is the open one. -/
theorem Stands.close {k k' : NodeKind} {stop : Nat}
    (h : d.Stands g dialect text pos (k :: k' :: path) xs)
    (hstop : isBoundary stop text = true) :
    (d.close stop).Stands g dialect text pos (k' :: path) xs := by
  have hcuts := (h.cuts d.current h.current_lt).1
  exact (h.setSpan h.current_lt h.current_not_leaf (Span.isBoundary_max hstop hcuts.start)
    (Nat.le_max_right _ _)).ascend

/-! ## Closing what nothing closed -/

theorem Stands.setEndTagStart (h : d.Stands g dialect text pos path xs) (i start : Nat) :
    (d.setEndTagStart i start).Stands g dialect text pos path xs := by
  unfold Draft.setEndTagStart
  split
  · next e heq => exact h.setSilent _ (Tree.kind_of_data heq).symm rfl trivial
  · exact h

theorem Stands.supplyEndTagStart (h : d.Stands g dialect text pos path xs) (stop : Nat) :
    (d.supplyEndTagStart stop).Stands g dialect text pos path xs := by
  unfold Draft.supplyEndTagStart
  split
  · next e heq => exact h.setSilent _ (Tree.kind_of_data heq).symm rfl trivial
  · exact h

/-- A node that nothing closed is closed like any other, once that is noted and reported. -/
theorem Stands.exists_close (h : d.Stands g dialect text pos path xs) (stop : Nat) :
    ∃ d' : Draft, d'.Stands g dialect text pos path xs ∧
      d.closeUnterminated stop = d'.close stop := by
  refine ⟨_, ?_, rfl⟩
  split
  · next e heq =>
    refine Stands.report ?_ _ _
    exact h.setSilent _ (Tree.kind_of_data heq).symm rfl trivial
  · exact h.report _ _
  · split
    · exact h.report _ _
    · exact h

theorem Stands.closeUnterminated {k k' : NodeKind} {stop : Nat}
    (h : d.Stands g dialect text pos (k :: k' :: path) xs)
    (hstop : isBoundary stop text = true) :
    (d.closeUnterminated stop).Stands g dialect text pos (k' :: path) xs := by
  -- what closing does is the same whatever was reported before, so the report is put in front
  obtain ⟨d', h', hclose⟩ := h.exists_close stop
  rw [hclose]
  exact h'.close hstop

/-- The root stays open. -/
theorem Stands.close_root {stop : Nat} (h : d.Stands g dialect text pos [.root] xs)
    (hstop : isBoundary stop text = true) :
    (d.close stop).Stands g dialect text pos [.root] xs := by
  have hcuts := (h.cuts d.current h.current_lt).1
  have hroot : d.current = Tree.root := h.chain.eq_root
  have hset := h.setSpan h.current_lt h.current_not_leaf (Span.isBoundary_max hstop hcuts.start)
    (Nat.le_max_right _ _)
  unfold Draft.close Draft.ascend
  dsimp only
  rw [Tree.parent_setSpan, hroot, h.shape.root, ← hroot]
  exact hset

theorem Stands.finishIn {stop : Nat} (hstop : isBoundary stop text = true) (fuel : Nat) :
    ∀ {path d}, d.Stands g dialect text pos path xs →
      ∃ path, (Draft.finishIn fuel stop d).Stands g dialect text pos path xs := by
  induction fuel with
  | zero => exact fun {path d} h => ⟨path, h⟩
  | succ fuel ih =>
    intro path d h
    unfold Draft.finishIn
    split
    · exact ⟨path, h⟩
    · next hroot =>
      -- below the root there are two kinds on the path, so closing has a parent to go to
      obtain ⟨k, k', path, rfl⟩ := h.chain.of_ne_root hroot
      exact ih ((h.supplyEndTagStart stop).closeUnterminated hstop)

/-- **A finished draft stands as it stood before.** -/
theorem Stands.finish (h : d.Stands g dialect text pos path xs) :
    ∃ path, d.finish.Stands g dialect text pos path xs := by
  refine Stands.finishIn ?_ d.tree.size h
  rw [h.text_eq]
  exact isBoundary_size text

theorem stands_start (g : Gather α) (dialect : Dialect) (text : Text) :
    (Draft.start dialect text).Stands g dialect text 0 [.root] [] := by
  have hroot : (Draft.start dialect text).tree.data 0 = .root := rfl
  refine ⟨rfl, rfl, isBoundary_zero text, Tree.shape_start dialect text, .root rfl, ?_, ?_, ?_, ?_,
    ?_⟩
  · intro k hk
    rw [List.mem_singleton.1 hk]
    rfl
  · intro i p hp
    have hi : i < 1 := Tree.lt_size_of_parent hp
    obtain rfl : i = 0 := by omega
    simp [Draft.start, Tree.start, Tree.parent, Tree.node] at hp
  · intro i hi
    obtain rfl : i = 0 := by
      rw [show (Draft.start dialect text).tree.size = 1 from rfl] at hi
      omega
    exact ⟨⟨Nat.zero_le _, isBoundary_zero text, isBoundary_size text⟩, Nat.le_refl _⟩
  · intro i hi
    obtain rfl : i = 0 := by
      rw [show (Draft.start dialect text).tree.size = 1 from rfl] at hi
      omega
    rw [hroot]
    trivial
  · rw [Tree.gather_of_last g (n := 0) rfl, Tree.gatherAt, hroot, g.silent _ _ _ _ rfl]
    rfl

end Stands

end Draft

end HybridMarkup
