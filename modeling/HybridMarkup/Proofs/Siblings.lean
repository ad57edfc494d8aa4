/-
Siblings in a tree that is built by hand.

Who is whose child is written down three times over: in the parent of the child, in the children of
the parent, and in the place that the child keeps. A builder rewrites all three on every call, and
it may be called in any order: a node is attached again to the parent it has, is taken from among
its siblings, is attached to itself. One place that is not moved up is enough for a later call to
take out the wrong child.

`Tree.attach` would not even stumble over that, since it passes over what is not there. So the work
is spelled out a second time with every look-up that may fail, `Tree.attach?`, and as long as the
links are in step it does not fail and comes to the same (`Tree.attach?_eq`). What the children are
afterwards is said by `Tree.Linked.children_attach`.

From the links being in step it follows that neighbours are each other's neighbours, and that to go
from neighbour to neighbour is to go through the children of the parent (`Tree.Linked.following`).

Main statement: `Tree.links_agree`.
-/
import HybridMarkup.Proofs.Attachments
import Mathlib.Data.List.Induction

set_option autoImplicit false

namespace HybridMarkup

/-! ## Iterators

An iterator has a state, and asked for the next item it gives one and takes on another state, or it
has come to its end. It need not come to its end, so what it gives is a relation. -/

/-- Begun in the state, the iterator gives these items in turn and then is at its end. -/
inductive Gives {σ α : Type} (next : σ → Option (α × σ)) : σ → List α → Prop where
  | done {s : σ} (h : next s = none) : Gives next s []
  | item {s s' : σ} {a : α} {l : List α} (h : next s = some (a, s')) (rest : Gives next s' l) :
      Gives next s (a :: l)

/-- The iterator that goes on from each item to the one behind it. -/
def successors {α : Type} (next : α → Option α) (a : α) : Option (α × α) :=
  (next a).map fun b => (b, b)

theorem Gives.successor {α : Type} {next : α → Option α} {a b : α} {l : List α}
    (h : next a = some b) (rest : Gives (successors next) b l) :
    Gives (successors next) a (b :: l) := by
  have hitem : successors next a = some (b, b) := by rw [successors, h, Option.map_some]
  exact .item hitem rest

theorem Gives.last {α : Type} {next : α → Option α} {a : α} (h : next a = none) :
    Gives (successors next) a [] := by
  apply Gives.done
  rw [successors, h, Option.map_none]

namespace Tree

variable {t : Tree} {i j p child parent old : Nat}

/-! ## Steps of building -/

/-- One call of a builder. -/
inductive BuildStep where
  | alloc (data : NodeData) (span : Span)
  | attach (child parent : NodeId)
deriving DecidableEq, Repr

/-- What comes of a call. -/
def perform (t : Tree) : BuildStep → Tree
  | .alloc data span => (t.alloc data span).2
  | .attach child parent => t.attach child parent

/-- What comes of calls one after the other. -/
def build (t : Tree) (steps : List BuildStep) : Tree := steps.foldl perform t

/-- Only nodes that there are by then are attached, and only to such. Before the first call there
are `n` of them. -/
def Allocated : Nat → List BuildStep → Prop
  | _, [] => True
  | n, .alloc _ _ :: steps => Allocated (n + 1) steps
  | n, .attach child parent :: steps => child < n ∧ parent < n ∧ Allocated n steps

instance decidableAllocated : ∀ (n : Nat) (steps : List BuildStep), Decidable (Allocated n steps)
  | _, [] => inferInstanceAs (Decidable True)
  | n, .alloc _ _ :: steps => decidableAllocated (n + 1) steps
  | n, .attach child parent :: steps =>
    have := decidableAllocated n steps
    inferInstanceAs (Decidable (child < n ∧ parent < n ∧ Allocated n steps))

/-! ## The same with every look-up -/

/-- The node at a place, if there is one. -/
def node? (t : Tree) (id : NodeId) : Option Node := t.nodes[id]?

/-- Changes the node at a place, if there is one. -/
def modify? (t : Tree) (id : NodeId) (f : Node → Node) : Option Tree :=
  (t.node? id).map fun _ => t.modify id f

/-- Writes into the child at an index that this is its place, if there is such a child. -/
def renumberAt? (parent : NodeId) (t : Tree) (index : Nat) : Option Tree := do
  let sibling ← (← t.node? parent).children[index]?
  t.modify? sibling fun n => { n with slot := index }

/-- Takes the child at an index out of the children of a node, if there is such a child. -/
def removeAt? (t : Tree) (parent : NodeId) (index : Nat) : Option Tree := do
  guard (index < (← t.node? parent).children.length)
  t.modify? parent fun n => { n with children := n.children.eraseIdx index }

/-- Takes a node out of its parent's children, if it has a parent, and closes the gap. -/
def detach? (t : Tree) (child : NodeId) : Option Tree := do
  match (← t.node? child).parent with
  | none => return t
  | some old =>
    let t ← t.modify? child fun n => { n with parent := none }
    let slot := (← t.node? child).slot
    let t ← t.removeAt? old slot
    let count := (← t.node? old).children.length
    (List.range' slot (count - slot)).foldlM (renumberAt? old) t

/-- Makes a node the last child of a parent, wherever it was before. -/
def attach? (t : Tree) (child parent : NodeId) : Option Tree := do
  let t ← t.detach? child
  let slot := (← t.node? parent).children.length
  let t ← t.modify? parent fun n => { n with children := n.children ++ [child] }
  t.modify? child fun n => { n with parent := some parent, slot }

/-- What comes of a call in which nothing is looked for that is not there. -/
def perform? (t : Tree) : BuildStep → Option Tree
  | .alloc data span => some (t.alloc data span).2
  | .attach child parent => t.attach? child parent

/-- What comes of such calls one after the other. -/
def build? (t : Tree) (steps : List BuildStep) : Option Tree := steps.foldlM perform? t

theorem node?_eq (hi : i < t.size) : t.node? i = some (t.node i) := by
  unfold size at hi
  simp [node?, node, Array.getD_eq_getD_getElem?, hi]

theorem modify?_eq (hi : i < t.size) (f : Node → Node) : t.modify? i f = some (t.modify i f) := by
  rw [modify?, node?_eq hi, Option.map_some]

theorem removeAt?_eq (hp : p < t.size) {index : Nat} (hindex : index < (t.children p).length) :
    t.removeAt? p index
      = some (t.modify p fun n => { n with children := n.children.eraseIdx index }) := by
  have hguard : index < (t.node p).children.length := hindex
  simp [removeAt?, node?_eq hp, modify?_eq hp, hguard, guard]

/-- **The siblings behind a gap are found one by one**, each where the one before it has left off:
writing down their places does not change which they are. -/
theorem foldlM_renumberAt? (t : Tree) (hparent : parent < t.size) (slot : Nat) {ids : List NodeId}
    (hids : (t.children parent).drop slot = ids) (hlt : ∀ i ∈ ids, i < t.size) :
    (List.range' slot ids.length).foldlM (renumberAt? parent) t = some (t.renumber slot ids) := by
  induction ids generalizing t slot with
  | nil => rfl
  | cons id ids ih =>
    have hhere : (t.children parent)[slot]? = some id := by
      have hhead : ((t.children parent).drop slot)[0]? = some id := by rw [hids]; rfl
      rwa [List.getElem?_drop, Nat.add_zero] at hhead
    have hid : id < t.size := hlt id List.mem_cons_self
    have hstep : renumberAt? parent t slot = some (t.modify id fun n => { n with slot }) := by
      unfold renumberAt?
      simp only [node?_eq hparent, Option.bind_eq_bind, Option.bind_some,
        show (t.node parent).children[slot]? = some id from hhere, modify?_eq hid]
    -- the children are the same afterwards, so the next index finds the next sibling
    have hsame : (t.modify id fun n => { n with slot }).children parent = t.children parent :=
      (links_renumber t slot [id] parent).2
    have hrest : (t.children parent).drop (slot + 1) = ids := by
      rw [← List.drop_drop, hids]
      rfl
    rw [List.length_cons, List.range'_succ, List.foldlM_cons, hstep]
    apply ih
    · rwa [size_modify]
    · rwa [hsame]
    · intro i hi
      rw [size_modify]
      exact hlt i (List.mem_cons_of_mem id hi)

/-- The child has let go of its parent, but it is still among the children of that. -/
def orphan (t : Tree) (child : Nat) : Tree := t.modify child fun n => { n with parent := none }

@[simp] theorem size_orphan (t : Tree) (child : Nat) : (t.orphan child).size = t.size :=
  size_modify ..

theorem slot_orphan (t : Tree) (child j : Nat) :
    ((t.orphan child).node j).slot = (t.node j).slot := by
  rw [orphan, node_modify]
  split <;> rfl

theorem children_orphan (t : Tree) (child j : Nat) :
    (t.orphan child).children j = t.children j := by
  rw [orphan, children, node_modify]
  split <;> rfl

theorem Linked.lt_size_of_release (h : t.Linked) (hold : t.parent child = some old)
    (hi : i ∈ (t.release child old).children old) : i < (t.release child old).size := by
  rw [children_release (h.parent_lt_size hold), if_pos rfl] at hi
  rw [size_release]
  exact lt_size_of_parent (h.mem_children_iff.1 (List.mem_of_mem_eraseIdx hi))

/-- **Taking a node out finds everything it looks for**, if the links are in step. -/
theorem detach?_eq (h : t.Linked) (hchild : child < t.size) :
    t.detach? child = some (t.detach child) := by
  rw [detach?, node?_eq hchild, Option.bind_eq_bind, Option.bind_some]
  rcases t.parent_cases child with horphan | ⟨old, hold⟩
  · rw [show (t.node child).parent = none from horphan, detach_of_orphan horphan]
    rfl
  · have hsize : old < t.size := h.parent_lt_size hold
    have hplace : (t.node child).slot < (t.children old).length :=
      (List.getElem?_eq_some_iff.1 ((h child old _).2 ⟨hold, rfl⟩)).1
    have horphan : t.modify? child (fun n => { n with parent := none }) = some (t.orphan child) :=
      modify?_eq hchild _
    have hremove : (t.orphan child).removeAt? old (t.node child).slot
        = some (t.release child old) := by
      rw [removeAt?_eq (by rwa [size_orphan]) (by rwa [children_orphan])]
      rfl
    have hloop := foldlM_renumberAt? (t.release child old) (by rwa [size_release])
      (t.node child).slot rfl fun i hi => h.lt_size_of_release hold (List.mem_of_mem_drop hi)
    rw [List.length_drop, ← detach_eq hold] at hloop
    rw [show (t.node child).parent = some old from hold]
    dsimp only
    rw [horphan, Option.bind_eq_bind, Option.bind_some, node?_eq (by rwa [size_orphan]),
      Option.bind_some, slot_orphan, hremove, Option.bind_some, node?_eq (by rwa [size_release]),
      Option.bind_some]
    exact hloop

/-- **Attaching finds everything it looks for**, if the links are in step, and comes to what it
comes to without looking. -/
theorem attach?_eq (h : t.Linked) (hchild : child < t.size) (hparent : parent < t.size) :
    t.attach? child parent = some (t.attach child parent) := by
  have hparent' : parent < (t.detach child).size := by rwa [size_detach]
  have hchild' : child < ((t.detach child).modify parent fun n =>
      { n with children := n.children ++ [child] }).size := by
    rwa [size_modify, size_detach]
  rw [attach?, detach?_eq h hchild, Option.bind_eq_bind, Option.bind_some, node?_eq hparent',
    Option.bind_eq_bind, Option.bind_some, modify?_eq hparent', Option.bind_some,
    modify?_eq hchild']
  rfl

/-! ## Every call -/

@[simp] theorem size_attach (t : Tree) (child parent : Nat) :
    (t.attach child parent).size = t.size := by
  rw [attach_eq, size_adopt, size_detach]

/-- **However it is built, a tree is built without a look-up that fails**, as long as nodes are
attached only after they have been allocated. -/
theorem Built.build (h : t.Built) {steps : List BuildStep} (hsteps : Allocated t.size steps) :
    (t.build steps).Built ∧ t.build? steps = some (t.build steps) := by
  induction steps generalizing t with
  | nil => exact ⟨h, rfl⟩
  | cons step steps ih =>
    cases step with
    | alloc data span =>
      apply ih (h.alloc data span)
      rw [size_alloc]
      exact hsteps
    | attach child parent =>
      obtain ⟨hchild, hparent, hsteps⟩ := hsteps
      have hrest : Allocated (t.attach child parent).size steps := by rwa [size_attach]
      obtain ⟨hbuilt, hbuild⟩ := ih (h.attach hchild hparent) hrest
      refine ⟨hbuilt, ?_⟩
      rw [build?, List.foldlM_cons, perform?, attach?_eq h.linked hchild hparent]
      exact hbuild

namespace Linked

/-- **What the children are** when a node has been attached: it is gone from where it was, the
others have kept their order, and it is the last child of its new parent. -/
theorem children_attach (h : t.Linked) (hchild : child < t.size) (hparent : parent < t.size)
    (p : Nat) :
    (t.attach child parent).children p
      = ((t.children p).filter fun i => i ≠ child) ++ if p = parent then [child] else [] := by
  have hdetach : (t.detach child).children p = (t.children p).filter fun i => i ≠ child := by
    have habsent (hp : t.parent child ≠ some p) :
        (t.children p).filter (fun i => i ≠ child) = t.children p := by
      rw [List.filter_eq_self]
      intro i hi
      rw [decide_eq_true_eq]
      rintro rfl
      exact hp (h.mem_children_iff.1 hi)
    rcases t.parent_cases child with horphan | ⟨old, hold⟩
    · rw [detach_of_orphan horphan, habsent (by simp [horphan])]
    · rw [h.children_detach hold]
      by_cases hp : p = old
      · subst hp
        have hplace := (h child p _).2 ⟨hold, rfl⟩
        obtain ⟨hlt, hget⟩ := List.getElem?_eq_some_iff.1 hplace
        rw [if_pos rfl, ← (h.nodup_children p).erase_getElem _ hlt, hget,
          (h.nodup_children p).erase_eq_filter]
        apply List.filter_congr
        intro i _
        rw [decide_not]
        rfl
      · rw [if_neg hp, habsent]
        rw [hold]
        intro heq
        exact hp (Option.some.inj heq).symm
  rw [attach_eq, (node_adopt (by rwa [size_detach]) (by rwa [size_detach]) p).2.1, hdetach]
  split <;> simp

/-! ## Neighbours -/

variable {front back : List NodeId}

theorem nextSibling_eq (h : t.Linked) (hsplit : t.children p = front ++ i :: back) :
    t.nextSibling i = back.head? := by
  obtain ⟨hp, hslot⟩ := h.of_split hsplit
  rw [nextSibling, hp, Option.bind_some, hslot, hsplit, List.append_cons,
    List.getElem?_append_right (by simp), List.length_append, List.length_singleton, Nat.sub_self,
    List.head?_eq_getElem?]

theorem prevSibling_eq (h : t.Linked) (hsplit : t.children p = front ++ i :: back) :
    t.prevSibling i = front.getLast? := by
  rw [prevSibling, h.siblingsBefore_eq hsplit, List.head?_reverse]

/-- **Neighbours are each other's neighbours.** -/
theorem nextSibling_iff (h : t.Linked) : t.nextSibling i = some j ↔ t.prevSibling j = some i := by
  constructor
  · intro hnext
    obtain ⟨p, hp, -⟩ := Option.bind_eq_some_iff.1 hnext
    obtain ⟨front, back, hsplit⟩ := h.exists_split hp
    rw [h.nextSibling_eq hsplit] at hnext
    obtain ⟨back, rfl⟩ := List.head?_eq_some_iff.1 hnext
    rw [List.append_cons] at hsplit
    rw [h.prevSibling_eq hsplit, List.getLast?_concat]
  · intro hprev
    rcases t.parent_cases j with horphan | ⟨p, hp⟩
    · simp [prevSibling, siblingsBefore, horphan] at hprev
    · obtain ⟨front, back, hsplit⟩ := h.exists_split hp
      rw [h.prevSibling_eq hsplit] at hprev
      obtain ⟨front, rfl⟩ := List.getLast?_eq_some_iff.1 hprev
      rw [List.append_assoc, List.singleton_append] at hsplit
      rw [h.nextSibling_eq hsplit, List.head?_cons]

/-- **From neighbour to neighbour** one comes to the children behind a node, and the other way to
those in front of it. -/
theorem following (h : t.Linked) (hsplit : t.children p = front ++ i :: back) :
    Gives (successors t.nextSibling) i back ∧
      Gives (successors t.prevSibling) i front.reverse := by
  constructor
  · induction back generalizing front i with
    | nil => exact .last (h.nextSibling_eq hsplit)
    | cons j back ih =>
      have hnext : t.nextSibling i = some j := h.nextSibling_eq hsplit
      have hsplit : t.children p = (front ++ [i]) ++ j :: back := by
        rw [hsplit, List.append_assoc, List.singleton_append]
      exact .successor hnext (ih hsplit)
  · induction front using List.reverseRecOn generalizing i back with
    | nil => exact .last (h.prevSibling_eq hsplit)
    | append_singleton front j ih =>
      rw [List.reverse_append, List.reverse_singleton, List.singleton_append]
      have hprev : t.prevSibling i = some j := by
        rw [h.prevSibling_eq hsplit, List.getLast?_concat]
      have hsplit : t.children p = front ++ j :: i :: back := by
        rw [hsplit, List.append_assoc, List.singleton_append]
      exact .successor hprev (ih hsplit)

end Linked

/-- **The links agree.** Let a tree be built by calls in any order, with nodes attached to nodes
that have been allocated by then. No call looks for something that is not there. In the tree that
comes of it a node has a parent just when it is one of the parent's children, and then it is so
once, at the place that it keeps, and nobody else's child. If one more node is attached, it becomes
the last child of its new parent, and all others keep their order. Neighbours are each other's
neighbours; and from a child one comes by neighbours to just the children behind it, and to just
those in front of it. -/
theorem links_agree (dialect : Dialect) (text : Text) (steps : List BuildStep)
    (hsteps : Allocated 1 steps) :
    let t := (start dialect text).build steps
    (start dialect text).build? steps = some t ∧
    (∀ c p : NodeId, t.parent c = some p ↔ c ∈ t.children p) ∧
    (∀ c p : NodeId, t.parent c = some p → (t.children p).count c = 1 ∧
      (t.children p)[(t.node c).slot]? = some c ∧ ∀ q, c ∈ t.children q → q = p) ∧
    (∀ child < t.size, ∀ parent < t.size,
      t.attach? child parent = some (t.attach child parent) ∧
      ∀ p, (t.attach child parent).children p
        = ((t.children p).filter fun c => c ≠ child) ++ if p = parent then [child] else []) ∧
    (∀ a b : NodeId, t.nextSibling a = some b ↔ t.prevSibling b = some a) ∧
    ∀ (p : NodeId) (front : List NodeId) (c : NodeId) (back : List NodeId),
      t.children p = front ++ c :: back →
        Gives (successors t.nextSibling) c back ∧
          Gives (successors t.prevSibling) c front.reverse := by
  intro t
  obtain ⟨hbuilt, hbuild⟩ := (Built.start dialect text).build hsteps
  have hlinked : t.Linked := hbuilt.linked
  refine ⟨hbuild, ?_, ?_, ?_, ?_, ?_⟩
  · intro c p
    exact hlinked.mem_children_iff.symm
  · intro c p hp
    have hmem : c ∈ t.children p := hlinked.mem_children_iff.2 hp
    refine ⟨List.count_eq_one_of_mem (hlinked.nodup_children p) hmem,
      (hlinked c p _).2 ⟨hp, rfl⟩, ?_⟩
    intro q hq
    have hq : t.parent c = some q := hlinked.mem_children_iff.1 hq
    exact Option.some.inj (hq.symm.trans hp)
  · intro child hchild parent hparent
    exact ⟨attach?_eq hlinked hchild hparent, hlinked.children_attach hchild hparent⟩
  · intro a b
    exact hlinked.nextSibling_iff
  · intro p front c back hsplit
    exact hlinked.following hsplit

/-- A child is taken from among its siblings and put behind them, and another node is attached to
itself. -/
theorem links_agree_moved :
    let leaf : BuildStep := .alloc .paragraph ⟨0, 0⟩
    let steps : List BuildStep := [leaf, leaf, leaf, leaf, .attach 1 0, .attach 2 0, .attach 3 0,
      .attach 2 0, .attach 4 4]
    let t := (start .markdown []).build steps
    Allocated 1 steps ∧ (start .markdown []).build? steps = some t ∧
      t.children 0 = [1, 3, 2] ∧ t.children 4 = [4] ∧
      t.nextSibling 3 = some 2 ∧ t.prevSibling 2 = some 3 ∧ t.prevSibling 4 = none := by
  intro leaf steps t
  have hsteps : Allocated 1 steps := by decide
  have hnext : t.nextSibling 3 = some 2 := by decide
  obtain ⟨hbuild, -, -, -, hneighbours, -⟩ := links_agree .markdown [] steps hsteps
  exact ⟨hsteps, hbuild, by decide, by decide, hnext, (hneighbours 3 2).1 hnext, by decide⟩

end Tree

end HybridMarkup
