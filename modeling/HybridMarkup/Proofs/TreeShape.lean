/-
Trees that grow along their right edge.

Nodes refer to each other by number, and numbers alone would allow any graph. `Tree.Shape` says
that there is a tree, and more: a node is newer than its parent, the children of a node are listed
from the oldest to the newest, and the nodes below a node are numbered without a gap. The last
holds because new nodes are only ever attached to a node on the right edge, which is the other half
of the invariant. The number of a node is then its place in the order of the document.

The first section is the only one that opens the array; it says for each way of changing a tree what
stands at each place afterwards.
-/
import HybridMarkup.Tree

set_option autoImplicit false

namespace HybridMarkup

namespace Tree

variable {t : Tree} {i j p : Nat}

/-! ## What stands where -/

theorem node_modify (t : Tree) (i j : Nat) (f : Node → Node) :
    (t.modify i f).node j = if i = j ∧ j < t.size then f (t.node j) else t.node j := by
  unfold node modify size
  simp only [Array.getD_eq_getD_getElem?, Array.getElem?_modify]
  by_cases hij : i = j
  · subst hij
    by_cases hi : i < t.nodes.size
    · simp [hi]
    · simp [hi]
  · simp [hij]

@[simp] theorem size_modify (t : Tree) (i : Nat) (f : Node → Node) :
    (t.modify i f).size = t.size := by
  simp [size, modify]

theorem node_alloc (t : Tree) (data : NodeData) (span : Span) (j : Nat) :
    (t.alloc data span).2.node j = if j = t.size then { span, data } else t.node j := by
  unfold node alloc size
  simp only [Array.getD_eq_getD_getElem?, Array.getElem?_push]
  split <;> rfl

theorem node_of_size_le (h : t.size ≤ i) : t.node i = { span := ⟨0, 0⟩, data := .root } := by
  unfold node size at *
  simp [Array.getD_eq_getD_getElem?, Array.getElem?_eq_none h]

theorem data_of_size_le (h : t.size ≤ i) : t.data i = .root := by
  rw [data, node_of_size_le h]

/-- What stands for something is a node of the tree. -/
theorem lt_size_of_data (h : t.data i ≠ .root) : i < t.size :=
  Nat.lt_of_not_le fun hle => h (data_of_size_le hle)

/-- The tree with a new last child of a node. -/
def sprout (t : Tree) (data : NodeData) (span : Span) (parent : Nat) : Tree :=
  (t.alloc data span).2.attach t.size parent

/-- **A new child** stands behind all nodes, and its parent lists it last; nothing else changes. -/
theorem node_sprout (data : NodeData) (span : Span) (hp : p < t.size) (j : Nat) :
    (t.sprout data span p).node j =
      if j = t.size then { span, data, parent := some p, slot := (t.children p).length }
      else if j = p then { t.node p with children := t.children p ++ [t.size] }
      else t.node j := by
  have hfresh : ((t.alloc data span).2.node t.size).parent = none := by
    rw [node_alloc, if_pos rfl]
  have hsize : (t.alloc data span).2.size = t.size + 1 := by simp [alloc, size]
  unfold sprout attach detach
  rw [hfresh]
  simp only [node_modify, size_modify, node_alloc, hsize]
  by_cases hj : j = t.size
  · subst hj
    simp [Nat.ne_of_lt hp, children]
  · by_cases hjp : j = p
    · subst hjp
      simp [hj, Ne.symm hj, Nat.lt_succ_of_lt hp, children]
    · simp [hj, hjp, Ne.symm hj, Ne.symm hjp]

@[simp] theorem size_sprout (t : Tree) (data : NodeData) (span : Span) (p : Nat) :
    (t.sprout data span p).size = t.size + 1 := by
  have hsize : (t.alloc data span).2.size = t.size + 1 := by simp [alloc, size]
  unfold sprout attach detach
  split
  · simp [hsize]
  · next h =>
    have hfresh : ((t.alloc data span).2.node t.size).parent = none := by
      rw [node_alloc, if_pos rfl]
    rw [hfresh] at h
    simp at h

theorem sprout_eq (t : Tree) (data : NodeData) (span : Span) (p : Nat) :
    ∃ nodes, t.sprout data span p = { t with nodes } := by
  have hfresh : ((t.alloc data span).2.node t.size).parent = none := by
    rw [node_alloc, if_pos rfl]
  unfold sprout attach detach
  rw [hfresh]
  exact ⟨_, rfl⟩

@[simp] theorem text_sprout (t : Tree) (data : NodeData) (span : Span) (p : Nat) :
    (t.sprout data span p).text = t.text := by
  obtain ⟨nodes, hnodes⟩ := t.sprout_eq data span p
  rw [hnodes]

@[simp] theorem dialect_sprout (t : Tree) (data : NodeData) (span : Span) (p : Nat) :
    (t.sprout data span p).dialect = t.dialect := by
  obtain ⟨nodes, hnodes⟩ := t.sprout_eq data span p
  rw [hnodes]

theorem node_setData (t : Tree) (i : Nat) (data : NodeData) (j : Nat) :
    (t.setData i data).node j =
      if i = j ∧ j < t.size then { t.node j with data } else t.node j :=
  node_modify ..

theorem node_setSpan (t : Tree) (i : Nat) (span : Span) (j : Nat) :
    (t.setSpan i span).node j =
      if i = j ∧ j < t.size then { t.node j with span } else t.node j :=
  node_modify ..

@[simp] theorem size_setData (t : Tree) (i : Nat) (data : NodeData) :
    (t.setData i data).size = t.size := size_modify ..

@[simp] theorem size_setSpan (t : Tree) (i : Nat) (span : Span) :
    (t.setSpan i span).size = t.size := size_modify ..

@[simp] theorem parent_setData (t : Tree) (i : Nat) (data : NodeData) (j : Nat) :
    (t.setData i data).parent j = t.parent j := by
  unfold parent
  rw [node_setData]
  split <;> rfl

@[simp] theorem parent_setSpan (t : Tree) (i : Nat) (span : Span) (j : Nat) :
    (t.setSpan i span).parent j = t.parent j := by
  unfold parent
  rw [node_setSpan]
  split <;> rfl

@[simp] theorem children_setData (t : Tree) (i : Nat) (data : NodeData) (j : Nat) :
    (t.setData i data).children j = t.children j := by
  unfold children
  rw [node_setData]
  split <;> rfl

@[simp] theorem children_setSpan (t : Tree) (i : Nat) (span : Span) (j : Nat) :
    (t.setSpan i span).children j = t.children j := by
  unfold children
  rw [node_setSpan]
  split <;> rfl

@[simp] theorem data_setSpan (t : Tree) (i : Nat) (span : Span) (j : Nat) :
    (t.setSpan i span).data j = t.data j := by
  unfold data
  rw [node_setSpan]
  split <;> rfl

@[simp] theorem span_setData (t : Tree) (i : Nat) (data : NodeData) (j : Nat) :
    (t.setData i data).span j = t.span j := by
  unfold span
  rw [node_setData]
  split <;> rfl

theorem data_setData (t : Tree) (i : Nat) (data : NodeData) (j : Nat) :
    (t.setData i data).data j = if i = j ∧ j < t.size then data else t.data j := by
  show ((t.setData i data).node j).data = _
  rw [node_setData]
  split <;> rfl

theorem span_setSpan (t : Tree) (i : Nat) (span : Span) (j : Nat) :
    (t.setSpan i span).span j = if i = j ∧ j < t.size then span else t.span j := by
  show ((t.setSpan i span).node j).span = _
  rw [node_setSpan]
  split <;> rfl

/-- Two changes that do not meddle with each other. -/
theorem modify_comm (t : Tree) (i j : Nat) {f g : Node → Node} (h : ∀ n, f (g n) = g (f n)) :
    (t.modify i f).modify j g = (t.modify j g).modify i f := by
  have hnodes : (t.nodes.modify i f).modify j g = (t.nodes.modify j g).modify i f := by
    refine Array.ext (by simp) fun k hk _ => ?_
    simp only [Array.getElem_modify]
    split <;> split <;> simp only [h]
  exact congrArg (fun nodes => ({ t with nodes } : Tree)) hnodes

theorem setSpan_setData (t : Tree) (i j : Nat) (data : NodeData) (span : Span) :
    (t.setData i data).setSpan j span = (t.setSpan j span).setData i data :=
  t.modify_comm i j fun _ => rfl

theorem setSpan_setSpan (t : Tree) (i : Nat) (span span' : Span) :
    (t.setSpan i span).setSpan i span' = t.setSpan i span' := by
  have hnodes : (t.nodes.modify i fun n => { n with span }).modify i
        (fun n => { n with span := span' })
      = t.nodes.modify i fun n => { n with span := span' } := by
    refine Array.ext (by simp) fun k hk _ => ?_
    simp only [Array.getElem_modify]
    split <;> rfl
  exact congrArg (fun nodes => ({ t with nodes } : Tree)) hnodes

section Sprout

variable {data : NodeData} {span : Span}

theorem parent_sprout (hp : p < t.size) (j : Nat) :
    (t.sprout data span p).parent j = if j = t.size then some p else t.parent j := by
  unfold parent
  rw [node_sprout data span hp]
  split
  · rfl
  · split
    · next h => rw [h]
    · rfl

theorem data_sprout (hp : p < t.size) (j : Nat) :
    (t.sprout data span p).data j = if j = t.size then data else t.data j := by
  show ((t.sprout data span p).node j).data = _
  rw [node_sprout data span hp]
  split
  · rfl
  · split
    · next h => rw [h]; rfl
    · rfl

theorem span_sprout (hp : p < t.size) (j : Nat) :
    (t.sprout data span p).span j = if j = t.size then span else t.span j := by
  show ((t.sprout data span p).node j).span = _
  rw [node_sprout data span hp]
  split
  · rfl
  · split
    · next h => rw [h]; rfl
    · rfl

theorem children_sprout (hp : p < t.size) (j : Nat) :
    (t.sprout data span p).children j =
      if j = t.size then [] else if j = p then t.children p ++ [t.size] else t.children j := by
  show ((t.sprout data span p).node j).children = _
  rw [node_sprout data span hp]
  split
  · rfl
  · split <;> rfl

end Sprout

theorem kind_of_data {data : NodeData} (h : t.data i = data) : t.kind i = data.kind :=
  congrArg NodeData.kind h

theorem lt_size_of_kind (h : t.kind i ≠ .root) : i < t.size :=
  lt_size_of_data fun hdata => h (kind_of_data hdata)

theorem parent_cases (t : Tree) (i : Nat) :
    t.parent i = none ∨ ∃ p : Nat, t.parent i = some p := by
  cases h : t.parent i with
  | none => exact .inl rfl
  | some p => exact .inr ⟨p, rfl⟩

theorem lt_size_of_parent (h : t.parent i = some p) : i < t.size := by
  refine Nat.lt_of_not_le fun hle => ?_
  rw [parent, node_of_size_le hle] at h
  simp at h

/-! ## The shape -/

/-- A tree whose right edge leads from the root to the given node and beyond. -/
structure Shape (t : Tree) (edge : Nat) : Prop where
  edge_lt : edge < t.size
  root : t.parent root = none
  /-- A node is newer than its parent. -/
  older : ∀ i : Nat, 0 < i → i < t.size → ∃ p : Nat, p < i ∧ t.parent i = some p
  /-- Children are listed from the oldest to the newest. -/
  listed : ∀ p : Nat, p < t.size →
    t.children p = (List.range t.size).filter fun i => t.parent i = some p
  /-- Between a node and its child there are only nodes below the node. -/
  nested : ∀ i j p : Nat, t.parent i = some p → p < j → j < i →
    ∃ q : Nat, p ≤ q ∧ t.parent j = some q
  /-- So there are behind a node of the right edge. -/
  rightmost : ∀ j : Nat, edge < j → j < t.size → ∃ q : Nat, edge ≤ q ∧ t.parent j = some q

variable {edge : Nat}

theorem Shape.parent_lt (h : t.Shape edge) (hp : t.parent i = some p) : p < i := by
  have hi : i < t.size := lt_size_of_parent hp
  have hpos : 0 < i := by
    refine Nat.pos_of_ne_zero fun hzero => ?_
    rw [hzero, show (0 : NodeId) = Tree.root from rfl, h.root] at hp
    simp at hp
  obtain ⟨q, hq, hparent⟩ := h.older i hpos hi
  rw [hp, Option.some.injEq] at hparent
  exact hparent ▸ hq

/-- The shape is a matter of the two directions of the parent relation only. -/
theorem Shape.congr {t' : Tree} (h : t.Shape edge) (hsize : t'.size = t.size)
    (hparent : ∀ j, t'.parent j = t.parent j) (hchildren : ∀ j, t'.children j = t.children j) :
    t'.Shape edge := by
  constructor
  · rw [hsize]
    exact h.edge_lt
  · rw [hparent]
    exact h.root
  · intro i hpos hi
    rw [hparent]
    exact h.older i hpos (hsize ▸ hi)
  · intro p hp
    rw [hchildren, hsize, h.listed p (hsize ▸ hp)]
    simp only [hparent]
  · intro i j p hi
    rw [hparent] at hi ⊢
    exact h.nested i j p hi
  · intro j hj hlt
    rw [hparent]
    exact h.rightmost j hj (hsize ▸ hlt)

theorem shape_start (dialect : Dialect) (text : Text) : (start dialect text).Shape root := by
  have hsize : (start dialect text).size = 1 := rfl
  constructor
  · exact Nat.one_pos
  · rfl
  · intro i hpos hi
    omega
  · intro p hp
    rw [hsize] at hp ⊢
    obtain rfl : p = 0 := by omega
    rfl
  · intro i j p hi
    have := lt_size_of_parent hi
    omega
  · intro j hj hlt
    rw [show root = 0 from rfl] at hj
    omega

/-- **A new child of a node of the right edge** leaves the shape as it is. -/
theorem Shape.sprout (h : t.Shape edge) (data : NodeData) (span : Span) :
    (t.sprout data span edge).Shape edge := by
  have hedge := h.edge_lt
  constructor
  · rw [size_sprout]
    exact Nat.lt_succ_of_lt hedge
  · rw [parent_sprout hedge, if_neg (by rw [show Tree.root = 0 from rfl]; omega)]
    exact h.root
  · intro i hpos hi
    rw [size_sprout] at hi
    rw [parent_sprout hedge]
    split
    · next heq => exact ⟨edge, heq ▸ hedge, rfl⟩
    · exact h.older i hpos (by omega)
  · intro p hp
    have hold (i : Nat) (hi : i ∈ List.range t.size) :
        (t.sprout data span edge).parent i = t.parent i := by
      rw [parent_sprout hedge, if_neg (Nat.ne_of_lt (List.mem_range.1 hi))]
    have hsame : (List.range t.size).filter (fun i => (t.sprout data span edge).parent i = some p)
        = (List.range t.size).filter fun i => t.parent i = some p :=
      List.filter_congr fun i hi => by rw [hold i hi]
    have hnone (hp : t.size ≤ p) :
        (List.range t.size).filter (fun i => t.parent i = some p) = [] := by
      refine List.filter_eq_nil_iff.2 fun i hi => ?_
      have hi := List.mem_range.1 hi
      have : t.parent i ≠ some p := fun hparent => by
        have := h.parent_lt hparent
        omega
      simpa using this
    rw [size_sprout] at hp ⊢
    rw [children_sprout hedge, List.range_succ, List.filter_append, hsame]
    simp only [List.filter_cons, List.filter_nil, parent_sprout hedge, if_true, Option.some.injEq,
      decide_eq_true_eq]
    -- three kinds of nodes: the new one has no children, the edge has one more, the others keep theirs
    by_cases hpn : p = t.size
    · rw [if_pos hpn, if_neg (by omega), hnone (Nat.le_of_eq hpn.symm), List.append_nil]
    · rw [if_neg hpn]
      by_cases hpe : p = edge
      · rw [if_pos hpe, if_pos hpe.symm, hpe, h.listed edge hedge]
      · rw [if_neg hpe, if_neg (Ne.symm hpe), List.append_nil, h.listed p (by omega)]
  · intro i j p hi hpj hji
    have hlt : i < t.size + 1 := by
      rw [← size_sprout t data span edge]
      exact lt_size_of_parent hi
    have hj : j ≠ t.size := by omega
    rw [parent_sprout hedge, if_neg hj]
    rw [parent_sprout hedge] at hi
    split at hi
    -- the new node is the only one whose parent is new; what is behind the edge is below it
    · next heq =>
      rw [Option.some.injEq] at hi
      subst hi
      exact h.rightmost j hpj (by omega)
    · exact h.nested i j p hi hpj hji
  · intro j hj hlt
    rw [size_sprout] at hlt
    rw [parent_sprout hedge]
    split
    · exact ⟨edge, Nat.le_refl _, rfl⟩
    · exact h.rightmost j hj (by omega)

/-- The newest node is on the right edge. -/
theorem Shape.last (h : t.Shape edge) : t.Shape (t.size - 1) := by
  have hedge := h.edge_lt
  refine ⟨by omega, h.root, h.older, h.listed, h.nested, fun j hj hlt => ?_⟩
  omega

/-- So is the parent of a node that is. -/
theorem Shape.up (h : t.Shape edge) (hp : t.parent edge = some p) : t.Shape p := by
  have hlt := h.parent_lt hp
  have hedge := h.edge_lt
  refine ⟨by omega, h.root, h.older, h.listed, h.nested, fun j hj hsize => ?_⟩
  -- in front of the old edge the gap is closed by `nested`, behind it by `rightmost`
  rcases Nat.lt_trichotomy j edge with hje | rfl | hje
  · exact h.nested edge j p hp hj hje
  · exact ⟨p, Nat.le_refl _, hp⟩
  · obtain ⟨q, hq, hparent⟩ := h.rightmost j hje hsize
    exact ⟨q, by omega, hparent⟩

/-! ## The kinds on the way to the root -/

/-- The kinds of a node and of everything above it. Nothing below the root is of its kind. -/
inductive Chain (t : Tree) : Nat → List NodeKind → Prop where
  | root (kind : t.kind root = .root) : Chain t root [.root]
  | under {i p : Nat} {k : NodeKind} {ks : List NodeKind} (kind : t.kind i = k)
      (inner : k ≠ .root) (parent : t.parent i = some p) (above : Chain t p ks) :
      Chain t i (k :: ks)

theorem Chain.congr {t' : Tree} {ks : List NodeKind} (h : t.Chain i ks) (hi : i < t.size)
    (hkind : ∀ j, j < t.size → t'.kind j = t.kind j)
    (hparent : ∀ j, j < t.size → t'.parent j = t.parent j)
    (hlt : ∀ j p : Nat, t.parent j = some p → p < j) : t'.Chain i ks := by
  induction h with
  | root kind => exact .root (by rw [hkind _ hi, kind])
  | under kind inner parent _ ih =>
    refine .under (by rw [hkind _ hi, kind]) inner (by rw [hparent _ hi, parent]) (ih ?_)
    exact Nat.lt_trans (hlt _ _ parent) hi

theorem Chain.kind_eq {k : NodeKind} {ks : List NodeKind} (h : t.Chain i (k :: ks)) :
    t.kind i = k := by
  cases h with
  | root kind => exact kind
  | under kind _ _ _ => exact kind

theorem Chain.kind_mem {ks : List NodeKind} (h : t.Chain i ks) : t.kind i ∈ ks := by
  cases h with
  | root kind => exact kind ▸ List.mem_singleton_self _
  | under kind _ _ _ => exact kind ▸ List.mem_cons_self

theorem Chain.eq_root {k : NodeKind} (h : t.Chain i [k]) : i = Tree.root := by
  cases h with
  | root _ => rfl
  | under _ _ _ above => cases above

theorem Chain.eq_root_of_kind {ks : List NodeKind} (h : t.Chain i (.root :: ks)) :
    i = Tree.root := by
  cases h with
  | root _ => rfl
  | under _ inner _ _ => exact absurd rfl inner

theorem Chain.root_kind {ks : List NodeKind} (h : t.Chain i ks) : t.kind Tree.root = .root := by
  induction h with
  | root kind => exact kind
  | under _ _ _ _ ih => exact ih

/-- Below the root there are at least two kinds on the way. -/
theorem Chain.of_ne_root {ks : List NodeKind} (h : t.Chain i ks) (hi : i ≠ Tree.root) :
    ∃ k k' path, ks = k :: k' :: path := by
  cases h with
  | root kind => exact absurd rfl hi
  | under _ _ _ above =>
    cases above with
    | root _ => exact ⟨_, _, _, rfl⟩
    | under _ _ _ _ => exact ⟨_, _, _, rfl⟩

/-- Where the way to the root goes on, there is a parent to go to. -/
theorem Chain.up {k k' : NodeKind} {ks : List NodeKind} (h : t.Chain i (k :: k' :: ks)) :
    ∃ p : Nat, t.parent i = some p ∧ t.Chain p (k' :: ks) := by
  cases h with
  | under _ _ parent above => exact ⟨_, parent, above⟩

end Tree

end HybridMarkup
