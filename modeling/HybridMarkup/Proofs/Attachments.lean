/-
Trees that are built by hand.

A tree may be put together in any order: nodes are allocated, attached and attached again somewhere
else, the root not excepted, and not even a cycle is refused. Whatever is done, the two directions of
the parent relation and the numbers of the places agree (`Tree.Linked`, `Tree.Built.linked`). All
other ways of working on a tree leave the links alone, so this is a matter of `Tree.attach`, and of
its first half, which takes a node out of the children of its old parent and moves up those behind
it.
-/
import HybridMarkup.Proofs.TreeSpans
import Mathlib.Data.List.Nodup

set_option autoImplicit false

namespace HybridMarkup

namespace Tree

variable {t t' : Tree} {i j p child parent : Nat}

/-- What comes of working on the tree of a document, whatever is attached where. -/
inductive Built : Tree → Prop where
  | start (dialect : Dialect) (text : Text) : Built (start dialect text)
  | alloc {t : Tree} (h : Built t) (data : NodeData) (span : Span) : Built (t.alloc data span).2
  | attach {t : Tree} (h : Built t) {child parent : NodeId} (hchild : child < t.size)
      (hparent : parent < t.size) : Built (t.attach child parent)
  | setData {t : Tree} (h : Built t) (id : NodeId) (data : NodeData) : Built (t.setData id data)
  | setSpan {t : Tree} (h : Built t) (id : NodeId) (span : Span) : Built (t.setSpan id span)

/-- The children of a node are the nodes that have it for a parent, and each of them stands where it
says it does, and there only. -/
def Linked (t : Tree) : Prop :=
  ∀ i p k : Nat, (t.children p)[k]? = some i ↔ t.parent i = some p ∧ (t.node i).slot = k

/-- The nodes have the same links. -/
structure SameLinks (t t' : Tree) : Prop where
  parent (i : Nat) : t'.parent i = t.parent i
  children (i : Nat) : t'.children i = t.children i
  slot (i : Nat) : (t'.node i).slot = (t.node i).slot

theorem Linked.congr (h : t.Linked) (hsame : t.SameLinks t') : t'.Linked := by
  intro i p k
  rw [hsame.children, hsame.parent, hsame.slot]
  exact h i p k

namespace Linked

theorem mem_children_iff (h : t.Linked) : i ∈ t.children p ↔ t.parent i = some p := by
  rw [List.mem_iff_getElem?]
  exact ⟨fun ⟨k, hk⟩ => ((h i p k).1 hk).1, fun hp => ⟨_, (h i p _).2 ⟨hp, rfl⟩⟩⟩

theorem slot_eq (h : t.Linked) {k : Nat} (hk : (t.children p)[k]? = some i) :
    (t.node i).slot = k :=
  ((h i p k).1 hk).2

/-- A node among children has the place that it says it has. -/
theorem of_split (h : t.Linked) {front back : List NodeId}
    (hsplit : t.children p = front ++ i :: back) :
    t.parent i = some p ∧ (t.node i).slot = front.length := by
  refine (h i p front.length).1 ?_
  rw [hsplit, List.getElem?_append_right (Nat.le_refl _), Nat.sub_self, List.getElem?_cons_zero]

theorem exists_split (h : t.Linked) (hp : t.parent i = some p) :
    ∃ front back, t.children p = front ++ i :: back :=
  List.append_of_mem (h.mem_children_iff.2 hp)

/-- What is in front of a node, seen from the node. -/
theorem siblingsBefore_eq (h : t.Linked) {front back : List NodeId}
    (hsplit : t.children p = front ++ i :: back) : t.siblingsBefore i = front.reverse := by
  obtain ⟨hp, hslot⟩ := h.of_split hsplit
  unfold siblingsBefore
  rw [hp, hslot]
  dsimp only
  rw [hsplit, List.take_left]

/-- No child is listed twice. -/
theorem nodup_children (h : t.Linked) (p : Nat) : (t.children p).Nodup := by
  refine List.nodup_iff_getElem?_ne_getElem?.2 fun k k' hlt hk' hsame => ?_
  obtain ⟨c, hc⟩ : ∃ c, (t.children p)[k']? = some c := ⟨_, List.getElem?_eq_getElem hk'⟩
  have hslot := h.slot_eq hc
  have hslot' := h.slot_eq (hsame.trans hc)
  omega

theorem parent_lt_size (h : t.Linked) (hp : t.parent i = some p) : p < t.size := by
  refine Nat.lt_of_not_le fun hle => ?_
  have hmem := h.mem_children_iff.2 hp
  rw [children, node_of_size_le hle] at hmem
  exact absurd hmem List.not_mem_nil

end Linked

theorem sameLinks_setData (t : Tree) (i : Nat) (data : NodeData) :
    t.SameLinks (t.setData i data) :=
  ⟨parent_setData t i data, children_setData t i data, slot_setData t i data⟩

theorem sameLinks_setSpan (t : Tree) (i : Nat) (span : Span) : t.SameLinks (t.setSpan i span) :=
  ⟨parent_setSpan t i span, children_setSpan t i span, slot_setSpan t i span⟩

/-- A new node has no links, and nothing stood in its place before. -/
theorem sameLinks_alloc (t : Tree) (data : NodeData) (span : Span) :
    t.SameLinks (t.alloc data span).2 := by
  have hnode (i : Nat) : (t.alloc data span).2.node i = t.node i ∨
      (t.alloc data span).2.node i = { span, data } ∧
        t.node i = { span := ⟨0, 0⟩, data := .root } := by
    rw [node_alloc]
    split
    · next heq => exact .inr ⟨rfl, node_of_size_le (Nat.le_of_eq heq.symm)⟩
    · exact .inl rfl
  have hlinks (i : Nat) : ((t.alloc data span).2.node i).parent = (t.node i).parent ∧
      ((t.alloc data span).2.node i).children = (t.node i).children ∧
      ((t.alloc data span).2.node i).slot = (t.node i).slot := by
    rcases hnode i with heq | ⟨hnew, hold⟩
    · rw [heq]
      exact ⟨rfl, rfl, rfl⟩
    · rw [hnew, hold]
      exact ⟨rfl, rfl, rfl⟩
  exact ⟨fun i => (hlinks i).1, fun i => (hlinks i).2.1, fun i => (hlinks i).2.2⟩

/-! ## Attaching -/

@[simp] theorem size_renumber (t : Tree) (slot : Nat) (ids : List NodeId) :
    (t.renumber slot ids).size = t.size := by
  induction ids generalizing t slot with
  | nil => rfl
  | cons id ids ih => rw [renumber, ih, size_modify]

theorem node_renumber_of_not_mem (t : Tree) (slot : Nat) {ids : List NodeId} (hj : j ∉ ids) :
    (t.renumber slot ids).node j = t.node j := by
  induction ids generalizing t slot with
  | nil => rfl
  | cons id ids ih =>
    obtain ⟨hne, hj⟩ := not_or.1 (mt List.mem_cons.2 hj)
    rw [renumber, ih _ _ hj, node_modify, if_neg fun h => hne h.1.symm]

/-- **Siblings are numbered in turn.** -/
theorem node_renumber (t : Tree) (slot : Nat) {ids : List NodeId} (hnodup : ids.Nodup) {k : Nat}
    (hk : ids[k]? = some j) (hj : j < t.size) :
    (t.renumber slot ids).node j = { t.node j with slot := slot + k } := by
  induction ids generalizing t slot k with
  | nil => simp at hk
  | cons id ids ih =>
    obtain ⟨hid, hnodup⟩ := List.nodup_cons.1 hnodup
    rw [renumber]
    cases k with
    | zero =>
      obtain rfl : id = j := by simpa using hk
      rw [node_renumber_of_not_mem _ _ hid, node_modify, if_pos ⟨rfl, hj⟩]
      rfl
    | succ k =>
      have hk : ids[k]? = some j := by simpa using hk
      have hne : id ≠ j := fun heq => hid (heq ▸ List.mem_of_getElem? hk)
      rw [ih _ _ hnodup hk (by rw [size_modify]; exact hj), node_modify, if_neg fun h => hne h.1]
      rw [Nat.add_assoc, Nat.add_comm 1 k]

/-- Renumbering changes nothing but the numbers. -/
theorem links_renumber (t : Tree) (slot : Nat) (ids : List NodeId) (j : Nat) :
    (t.renumber slot ids).parent j = t.parent j ∧
      (t.renumber slot ids).children j = t.children j := by
  induction ids generalizing t slot with
  | nil => exact ⟨rfl, rfl⟩
  | cons id ids ih =>
    obtain ⟨hparent, hchildren⟩ := ih (t.modify id fun n => { n with slot }) (slot + 1)
    rw [renumber, hparent, hchildren]
    unfold Tree.parent Tree.children
    rw [node_modify]
    split <;> exact ⟨rfl, rfl⟩

@[simp] theorem size_detach (t : Tree) (child : Nat) : (t.detach child).size = t.size := by
  unfold detach
  split <;> simp

/-- The child has left its parent, but the siblings behind it have not moved up. -/
def release (t : Tree) (child old : Nat) : Tree :=
  (t.modify child fun n => { n with parent := none }).modify old fun n =>
    { n with children := n.children.eraseIdx (t.node child).slot }

@[simp] theorem size_release (t : Tree) (child old : Nat) : (t.release child old).size = t.size := by
  rw [release, size_modify, size_modify]

/-- A node without a parent is left where it is. -/
theorem detach_of_orphan (h : t.parent child = none) : t.detach child = t := by
  unfold detach
  rw [show (t.node child).parent = none from h]

theorem detach_eq {old : Nat} (hold : t.parent child = some old) :
    t.detach child = (t.release child old).renumber (t.node child).slot
      (((t.release child old).children old).drop (t.node child).slot) := by
  unfold detach
  rw [show (t.node child).parent = some old from hold]
  rfl

variable {old : Nat}

theorem parent_release (hchild : child < t.size) (j : Nat) :
    (t.release child old).parent j = if j = child then none else t.parent j := by
  show ((Tree.modify ..).node j).parent = _
  rw [node_modify, node_modify]
  by_cases hj : j = child
  · subst hj
    simp only [hchild, and_self, if_true]
    split <;> rfl
  · rw [if_neg hj, if_neg (show ¬ (child = j ∧ _) from fun h => hj h.1.symm)]
    split <;> rfl

theorem children_release (hold : old < t.size) (j : Nat) :
    (t.release child old).children j
      = if j = old then (t.children j).eraseIdx (t.node child).slot else t.children j := by
  show ((Tree.modify ..).node j).children = _
  rw [node_modify, node_modify, size_modify]
  have hinner : (if child = j ∧ j < t.size then { t.node j with parent := none }
      else t.node j : Node).children = t.children j := by
    split <;> rfl
  by_cases hj : j = old
  · subst hj
    rw [if_pos ⟨rfl, hold⟩, if_pos rfl, ← hinner]
  · rw [if_neg hj, if_neg fun h => hj h.1.symm, hinner]

theorem slot_release (t : Tree) (child old j : Nat) :
    ((t.release child old).node j).slot = (t.node j).slot := by
  rw [release, node_modify, node_modify]
  split <;> split <;> rfl

theorem parent_detach (hold : t.parent child = some old) (j : Nat) :
    (t.detach child).parent j = if j = child then none else t.parent j := by
  rw [detach_eq hold, (links_renumber ..).1, parent_release (lt_size_of_parent hold)]

namespace Linked

variable {k : Nat}

theorem children_detach (h : t.Linked) (hold : t.parent child = some old) (j : Nat) :
    (t.detach child).children j
      = if j = old then (t.children j).eraseIdx (t.node child).slot else t.children j := by
  rw [detach_eq hold, (links_renumber ..).2, children_release (h.parent_lt_size hold)]

/-- What stands behind the gap stood one place further behind, and the rest stands where it stood. -/
theorem slot_detach (h : t.Linked) (hold : t.parent child = some old)
    (hk : ((t.children old).eraseIdx (t.node child).slot)[k]? = some j) :
    ((t.detach child).node j).slot = k ∧ t.parent j = some old ∧ j ≠ child := by
  have hsize := h.parent_lt_size hold
  have hmoved : (t.release child old).children old
      = (t.children old).eraseIdx (t.node child).slot := by
    rw [children_release hsize, if_pos rfl]
  have hnodup : (((t.release child old).children old).drop (t.node child).slot).Nodup :=
    (hmoved ▸ (h.nodup_children old).sublist (List.eraseIdx_sublist _ _)).sublist
      (List.drop_sublist _ _)
  have hplaced := hk
  rw [List.getElem?_eraseIdx] at hplaced
  rw [detach_eq hold]
  -- in front of the gap nothing is renumbered, and behind it everything is
  split at hplaced
  · next hlt =>
    obtain ⟨hparent, hslot⟩ := (h j old k).1 hplaced
    have hstays : j ∉ ((t.release child old).children old).drop (t.node child).slot := by
      intro hmem
      obtain ⟨m, hm⟩ := List.mem_iff_getElem?.1 hmem
      rw [List.getElem?_drop, hmoved, List.getElem?_eraseIdx, if_neg (by omega)] at hm
      have := h.slot_eq hm
      omega
    refine ⟨?_, hparent, fun heq => ?_⟩
    · rw [node_renumber_of_not_mem _ _ hstays, slot_release, hslot]
    · rw [heq] at hslot
      omega
  · next hge =>
    obtain ⟨hparent, hslot⟩ := (h j old (k + 1)).1 hplaced
    have hplace : (((t.release child old).children old).drop (t.node child).slot)[k -
        (t.node child).slot]? = some j := by
      rw [List.getElem?_drop, hmoved, Nat.add_sub_cancel' (Nat.le_of_not_lt hge), hk]
    refine ⟨?_, hparent, fun heq => ?_⟩
    · rw [node_renumber _ _ hnodup hplace (by simpa using lt_size_of_parent hparent)]
      exact Nat.add_sub_cancel' (Nat.le_of_not_lt hge)
    · rw [heq] at hslot
      omega

/-- A node of another parent keeps its place. -/
theorem slot_detach_of_ne (h : t.Linked) (hold : t.parent child = some old)
    (hj : t.parent j ≠ some old) : ((t.detach child).node j).slot = (t.node j).slot := by
  have hstays : j ∉ ((t.release child old).children old).drop (t.node child).slot := by
    intro hmem
    have hmem := List.mem_of_mem_drop hmem
    rw [children_release (h.parent_lt_size hold), if_pos rfl] at hmem
    exact hj (h.mem_children_iff.1 (List.mem_of_mem_eraseIdx hmem))
  rw [detach_eq hold, node_renumber_of_not_mem _ _ hstays, slot_release]

/-- **Taking a node out** of its parent's children leaves the links in step. -/
theorem detach (h : t.Linked) (child : Nat) :
    (t.detach child).Linked ∧ (t.detach child).parent child = none := by
  rcases t.parent_cases child with hnone | ⟨old, hold⟩
  · rw [detach_of_orphan hnone]
    exact ⟨h, hnone⟩
  refine ⟨fun i p k => ?_, by rw [parent_detach hold, if_pos rfl]⟩
  rw [h.children_detach hold, parent_detach hold]
  by_cases hp : p = old
  · subst hp
    rw [if_pos rfl]
    constructor
    · intro hk
      obtain ⟨hslot, hparent, hne⟩ := h.slot_detach hold hk
      rw [if_neg hne]
      exact ⟨hparent, hslot⟩
    · rintro ⟨hparent, hslot⟩
      split at hparent
      · simp at hparent
      next hne =>
      -- it had a place beside the child, and the place it has now is the one that is left of it
      have hplace := (h i p _).2 ⟨hparent, rfl⟩
      have hbeside : (t.node i).slot ≠ (t.node child).slot := fun heq => by
        rw [heq, (h child p _).2 ⟨hold, rfl⟩, Option.some.injEq] at hplace
        exact hne hplace.symm
      have hmem : i ∈ (t.children p).eraseIdx (t.node child).slot :=
        List.mem_eraseIdx_iff_getElem?.2 ⟨_, hbeside, hplace⟩
      obtain ⟨m, hm⟩ := List.mem_iff_getElem?.1 hmem
      obtain ⟨hm', _, _⟩ := h.slot_detach hold hm
      rwa [← hslot, hm']
  · rw [if_neg hp]
    have hother : t.parent i = some p → i ≠ child ∧
        ((t.detach child).node i).slot = (t.node i).slot := by
      intro hparent
      refine ⟨fun heq => ?_, h.slot_detach_of_ne hold fun hsame => ?_⟩
      · rw [heq, hold, Option.some.injEq] at hparent
        exact hp hparent.symm
      · rw [hparent, Option.some.injEq] at hsame
        exact hp hsame
    rw [h i p k]
    constructor
    · rintro ⟨hparent, hslot⟩
      obtain ⟨hne, hsame⟩ := hother hparent
      rw [if_neg hne, hsame]
      exact ⟨hparent, hslot⟩
    · rintro ⟨hparent, hslot⟩
      split at hparent
      · simp at hparent
      · exact ⟨hparent, (hother hparent).2 ▸ hslot⟩

end Linked

/-- The node has become the last child of the parent, without having left another one. -/
def adopt (t : Tree) (child parent : Nat) : Tree :=
  (t.modify parent fun n => { n with children := n.children ++ [child] }).modify child fun n =>
    { n with parent := some parent, slot := (t.children parent).length }

theorem attach_eq (t : Tree) (child parent : Nat) :
    t.attach child parent = (t.detach child).adopt child parent := rfl

@[simp] theorem size_adopt (t : Tree) (child parent : Nat) :
    (t.adopt child parent).size = t.size := by
  rw [adopt, size_modify, size_modify]

theorem node_adopt (hchild : child < t.size) (hparent : parent < t.size) (j : Nat) :
    (t.adopt child parent).parent j = (if j = child then some parent else t.parent j) ∧
      (t.adopt child parent).children j
        = (if j = parent then t.children j ++ [child] else t.children j) ∧
      ((t.adopt child parent).node j).slot
        = if j = child then (t.children parent).length else (t.node j).slot := by
  unfold Tree.parent Tree.children adopt
  rw [node_modify, node_modify, size_modify]
  by_cases hj : j = child
  · subst hj
    rw [if_pos ⟨rfl, hchild⟩]
    refine ⟨by simp, ?_, by simp; rfl⟩
    by_cases hp : j = parent
    · simp [hp, hparent]
    · simp [hp, Ne.symm hp]
  · rw [if_neg fun h => hj h.1.symm]
    by_cases hp : j = parent
    · simp [hp, hparent, show parent ≠ child from hp ▸ hj]
    · simp [hp, hj, Ne.symm hp]

namespace Linked

theorem adopt (h : t.Linked) (horphan : t.parent child = none) (hchild : child < t.size)
    (hparent : parent < t.size) : (t.adopt child parent).Linked := by
  intro i p k
  obtain ⟨hparents, -, hslots⟩ := node_adopt hchild hparent i
  rw [hparents, hslots, (node_adopt hchild hparent p).2.1]
  -- the node was among no children before, and is the last one now
  have hfresh {q m : Nat} (hm : (t.children q)[m]? = some child) : False := by
    have := ((h child q m).1 hm).1
    simp [horphan] at this
  by_cases hi : i = child
  · subst hi
    rw [if_pos rfl, if_pos rfl, Option.some.injEq]
    split
    · next hp =>
      subst hp
      constructor
      · intro hk
        rw [List.getElem?_append] at hk
        split at hk
        · exact (hfresh hk).elim
        · next hge =>
          have := (List.getElem?_eq_some_iff.1 hk).1
          rw [List.length_singleton] at this
          exact ⟨rfl, by omega⟩
      · rintro ⟨_, rfl⟩
        exact List.getElem?_concat_length
    · next hp => exact ⟨fun hk => (hfresh hk).elim, fun hk => absurd hk.1.symm hp⟩
  · rw [if_neg hi, if_neg hi, ← h i p k]
    split
    · rw [List.getElem?_append]
      split
      · rfl
      · next hp hge =>
        constructor
        · intro hk
          have := List.mem_singleton.1 (List.mem_of_getElem? hk)
          exact absurd this hi
        · intro hk
          exact absurd (List.getElem?_eq_some_iff.1 hk).1 hge
    · rfl

/-- **Attaching** leaves the links in step, whatever is attached where. -/
theorem attach (h : t.Linked) (hchild : child < t.size) (hparent : parent < t.size) :
    (t.attach child parent).Linked := by
  obtain ⟨hdetach, horphan⟩ := h.detach child
  rw [attach_eq]
  exact hdetach.adopt horphan (by rwa [size_detach]) (by rwa [size_detach])

end Linked

theorem linked_start (dialect : Dialect) (text : Text) : (start dialect text).Linked := by
  have hchildren (p : Nat) : (start dialect text).children p = [] := by cases p <;> rfl
  have hparent (i : Nat) : (start dialect text).parent i = none := by cases i <;> rfl
  intro i p k
  simp [hchildren, hparent]

/-- **A tree that is built** has its links in step. -/
theorem Built.linked (h : t.Built) : t.Linked := by
  induction h with
  | start dialect text => exact linked_start dialect text
  | alloc _ data span ih => exact ih.congr (sameLinks_alloc _ data span)
  | attach _ hchild hparent ih => exact ih.attach hchild hparent
  | setData _ id data ih => exact ih.congr (sameLinks_setData _ id data)
  | setSpan _ id span ih => exact ih.congr (sameLinks_setSpan _ id span)

@[simp] theorem size_alloc (t : Tree) (data : NodeData) (span : Span) :
    (t.alloc data span).2.size = t.size + 1 := by
  simp [alloc, size]

theorem Built.size_pos (h : t.Built) : 0 < t.size := by
  induction h with
  | start => exact Nat.one_pos
  | alloc _ data span ih => exact Nat.lt_of_lt_of_le ih (by simp)
  | attach _ _ _ ih => rwa [attach_eq, size_adopt, size_detach]
  | setData _ id data ih => rwa [size_setData]
  | setSpan _ id span ih => rwa [size_setSpan]

theorem Built.sprout (h : t.Built) (hp : p < t.size) (data : NodeData) (span : Span) :
    (t.sprout data span p).Built :=
  .attach (h.alloc data span) (by simp) (by rw [size_alloc]; exact Nat.lt_succ_of_lt hp)

end Tree

end HybridMarkup
