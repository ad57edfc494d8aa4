/-
The order in which a tree is visited.

`Tree.visit` works with a stack and as much fuel as there are nodes. What it should come to is said by
`Tree.Lists`: some nodes are listed one after the other, and each of them is followed by the listing
of its children. In a tree that has its links in step (`Tree.Linked`) and no cycles (`Tree.Acyclic`)
there is such a listing of any node; it has every node that stands under that node, and none of them
twice; so it is no longer than the fuel, and the visit comes to just this (`Tree.descendants_lists`).
-/
import HybridMarkup.Proofs.Attachments
import Mathlib.Data.Finset.Card
import Mathlib.Data.List.Perm.Subperm

set_option autoImplicit false

namespace HybridMarkup

namespace Tree

variable {t : Tree} {i p x : Nat}

/-- No node stands under one of its children. -/
def Acyclic (t : Tree) : Prop := ∀ i p : Nat, t.parent i = some p → ¬ t.Under p i

/-- Nodes are never older than their parents, so there are no cycles. -/
theorem Shape.acyclic {edge : Nat} (h : t.Shape edge) : t.Acyclic := by
  intro i p hp hunder
  have hlt := h.parent_lt hp
  have hle := hunder.le h
  omega

/-- There are no cycles where nodes can be ranked below their parents. -/
theorem acyclic_of_rank (rank : Nat → Nat)
    (h : ∀ i < t.size, ∀ p ∈ t.parent i, rank p < rank i) : t.Acyclic := by
  have hup {i p : Nat} (hp : t.parent i = some p) : rank p < rank i :=
    h i (lt_size_of_parent hp) p hp
  have hunder {i a : Nat} (h : t.Under i a) : rank a ≤ rank i := by
    induction h with
    | refl => exact Nat.le_refl _
    | tail _ hq ih => exact Nat.le_trans (Nat.le_of_lt (hup hq)) ih
  intro i p hp h
  exact absurd (hup hp) (Nat.not_lt_of_le (hunder h))

/-- **From the leaves to the root**: what holds of a node if it holds of all its children holds of
every node. -/
theorem Acyclic.fromLeaves (hac : t.Acyclic) (hlinked : t.Linked) {P : Nat → Prop}
    (hstep : ∀ i : Nat, (∀ c : Nat, t.parent c = some i → P c) → P i) (i : Nat) : P i := by
  classical
  -- under a child there are fewer nodes than under its parent
  let below (i : Nat) : Finset Nat := (Finset.range t.size).filter fun j => t.Under j i
  induction hcard : (below i).card using Nat.strongRecOn generalizing i with
  | ind n ih =>
    refine hstep i fun c hc => ih _ ?_ c rfl
    rw [← hcard]
    refine Finset.card_lt_card (Finset.ssubset_iff_of_subset ?_ |>.2 ⟨i, ?_, ?_⟩)
    · intro j hj
      obtain ⟨hlt, hunder⟩ := Finset.mem_filter.1 hj
      exact Finset.mem_filter.2 ⟨hlt, Relation.ReflTransGen.tail hunder hc⟩
    · exact Finset.mem_filter.2 ⟨Finset.mem_range.2 (hlinked.parent_lt_size hc), .refl t i⟩
    · exact fun hi => hac c i hc (Finset.mem_filter.1 hi).2

/-! ## Listings -/

/-- The nodes are listed in turn, each of them followed by the listing of its children. -/
inductive Lists (t : Tree) : List NodeId → List NodeId → Prop where
  | nil : Lists t [] []
  | cons {i : NodeId} {rest below behind : List NodeId} (children : Lists t (t.children i) below)
      (siblings : Lists t rest behind) : Lists t (i :: rest) (i :: (below ++ behind))

variable {roots l : List NodeId}

theorem exists_lists_of_forall (h : ∀ i ∈ roots, ∃ l, t.Lists (t.children i) l) :
    ∃ l, t.Lists roots l := by
  induction roots with
  | nil => exact ⟨_, .nil⟩
  | cons i rest ih =>
    obtain ⟨below, hbelow⟩ := h i List.mem_cons_self
    obtain ⟨behind, hbehind⟩ := ih fun j hj => h j (List.mem_cons_of_mem i hj)
    exact ⟨_, .cons hbelow hbehind⟩

theorem exists_lists (hlinked : t.Linked) (hac : t.Acyclic) (roots : List NodeId) :
    ∃ l, t.Lists roots l := by
  have hchildren : ∀ i : Nat, ∃ l, t.Lists (t.children i) l :=
    hac.fromLeaves hlinked fun i ih =>
      exists_lists_of_forall fun c hc => ih c (hlinked.mem_children_iff.1 hc)
  exact exists_lists_of_forall fun i _ => hchildren i

/-- What stands under a node is the node itself, or stands under one of its children. -/
theorem under_iff_child : t.Under x i ↔ x = i ∨ ∃ c : Nat, t.parent c = some i ∧ t.Under x c := by
  constructor
  · intro h
    rcases Relation.ReflTransGen.cases_tail h with rfl | ⟨c, hc, hp⟩
    · exact .inl rfl
    · exact .inr ⟨c, hp, hc⟩
  · rintro (rfl | ⟨c, hp, hc⟩)
    · exact .refl t x
    · exact Relation.ReflTransGen.tail hc hp

/-- A listing has what stands under the listed nodes. -/
theorem Lists.mem_iff (h : t.Lists roots l) (hlinked : t.Linked) (x : Nat) :
    x ∈ l ↔ ∃ r ∈ roots, t.Under x r := by
  induction h with
  | nil => simp
  | @cons i rest below behind _ _ hchildren hsiblings =>
    have hunder : t.Under x i ↔ x = i ∨ ∃ c ∈ t.children i, t.Under x c := by
      rw [under_iff_child]
      simp only [hlinked.mem_children_iff]
    rw [List.mem_cons, List.mem_append, hchildren, hsiblings, ← or_assoc, ← hunder]
    simp

/-- Of two nodes above a node one is above the other. -/
theorem Under.total {a b : Nat} (ha : t.Under x a) (hb : t.Under x b) :
    t.Under a b ∨ t.Under b a :=
  Relation.ReflTransGen.total_of_right_unique
    (fun _ _ _ hp hq => Option.some.inj (hp.symm.trans hq)) ha hb

/-- A listing of nodes that do not stand under each other has no node twice. -/
theorem Lists.nodup (h : t.Lists roots l) (hlinked : t.Linked) (hac : t.Acyclic)
    (hroots : roots.Nodup) (hapart : ∀ r ∈ roots, ∀ r' ∈ roots, t.Under r r' → r = r') :
    l.Nodup := by
  induction h with
  | nil => exact List.nodup_nil
  | @cons i rest below behind hchildren hsiblings ihchildren ihsiblings =>
    obtain ⟨hi, hrest⟩ := List.nodup_cons.1 hroots
    have hbelow (x : Nat) (hx : x ∈ below) : ∃ c : Nat, t.parent c = some i ∧ t.Under x c := by
      obtain ⟨c, hc, hunder⟩ := (hchildren.mem_iff hlinked x).1 hx
      exact ⟨c, hlinked.mem_children_iff.1 hc, hunder⟩
    have hbehind (x : Nat) (hx : x ∈ behind) (hunder : t.Under x i) : False := by
      obtain ⟨r, hr, hxr⟩ := (hsiblings.mem_iff hlinked x).1 hx
      have hmem := List.mem_cons_of_mem i hr
      have hsame : r = i := by
        rcases hxr.total hunder with hri | hir
        · exact hapart r hmem i List.mem_cons_self hri
        · exact (hapart i List.mem_cons_self r hmem hir).symm
      exact hi (hsame ▸ hr)
    have hchild {c c' : Nat} (hc : t.parent c = some i) (hc' : t.parent c' = some i)
        (hunder : t.Under c c') : c = c' := by
      rcases hunder.cases_parent hc with heq | habove
      · exact heq.symm
      · exact absurd habove (hac c' i hc')
    rw [List.nodup_cons, List.nodup_append]
    refine ⟨fun hmem => ?_, ihchildren (hlinked.nodup_children i) fun c hc c' hc' => ?_,
      ihsiblings hrest fun r hr r' hr' => ?_, fun x hx y hy heq => ?_⟩
    · rcases List.mem_append.1 hmem with hmem | hmem
      · obtain ⟨c, hc, hunder⟩ := hbelow i hmem
        exact hac c i hc hunder
      · exact hbehind i hmem (.refl t i)
    · exact hchild (hlinked.mem_children_iff.1 hc) (hlinked.mem_children_iff.1 hc')
    · exact hapart r (List.mem_cons_of_mem i hr) r' (List.mem_cons_of_mem i hr')
    · obtain ⟨c, hc, hunder⟩ := hbelow x hx
      exact hbehind x (heq ▸ hy) (Relation.ReflTransGen.tail hunder hc)

/-! ## The visit -/

/-- The visit lists what is on the stack, as long as there is fuel. -/
theorem Lists.visit (h : t.Lists roots l) (fuel : Nat) (stack : List NodeId) :
    t.visit (l.length + fuel) (roots ++ stack) = l ++ t.visit fuel stack := by
  induction h generalizing fuel stack with
  | nil => simp
  | @cons i rest below behind _ _ ihchildren ihsiblings =>
    have hfuel : (i :: (below ++ behind)).length + fuel
        = below.length + (behind.length + fuel) + 1 := by
      simp only [List.length_cons, List.length_append]
      omega
    rw [hfuel, List.cons_append, Tree.visit, ihchildren, ihsiblings, List.cons_append,
      List.append_assoc]

/-- **What is visited from a node** is the node, followed by the listing of its children. Every node
that stands under it is visited, and none twice. -/
theorem descendants_lists (hlinked : t.Linked) (hac : t.Acyclic) (hi : i < t.size) :
    t.Lists [i] (t.descendants i) ∧ (t.descendants i).Nodup ∧
      ∀ x : Nat, x ∈ t.descendants i ↔ t.Under x i := by
  obtain ⟨l, hlists⟩ := exists_lists hlinked hac [i]
  have hmem (x : Nat) : x ∈ l ↔ t.Under x i := by
    rw [hlists.mem_iff hlinked]
    simp
  have hnodup : l.Nodup :=
    hlists.nodup hlinked hac (List.nodup_singleton i) fun r hr r' hr' _ =>
      (List.mem_singleton.1 hr).trans (List.mem_singleton.1 hr').symm
  -- what stands under a node of the tree is a node of the tree
  have hsubset : l ⊆ List.range t.size := by
    intro x hx
    rw [List.mem_range]
    rcases Relation.ReflTransGen.cases_head ((hmem x).1 hx) with rfl | ⟨p, hp, _⟩
    · exact hi
    · exact lt_size_of_parent hp
  have hlength : l.length ≤ t.size := by
    simpa using (List.subperm_of_subset hnodup hsubset).length_le
  have hvisit : t.descendants i = l := by
    have hlist := hlists.visit (t.size - l.length) []
    rw [Nat.add_sub_cancel' hlength] at hlist
    rw [descendants, ← List.append_nil [i], hlist]
    cases t.size - l.length <;> simp [Tree.visit]
  rw [hvisit]
  exact ⟨hlists, hnodup, hmem⟩

end Tree

end HybridMarkup
