/-
Ways through a tree without cycles.

There are four of them. A visit takes nodes off a stack and puts their children there instead, in
reverse; a listing and a dump go down by recursion; and to climb is to go from parent to parent.
None of them need come to an end where a node can stand under itself, so first of all a tree has to
stay without cycles while it is built: it does, as long as no node is attached to itself or to what
stands under it (`Tree.Acyclic.attach`).

The visit is an iterator, and what it gives is found by the listing (`Tree.Lists.gives`): the
invariant is that the stack, read from its top, is what is left to be listed. To climb comes to an
end because above a parent there are fewer nodes than above its child (`Tree.Acyclic.fromRoots`).

Main statement: `Tree.traversals_agree`.
-/
import HybridMarkup.Proofs.Siblings
import HybridMarkup.Proofs.Outlines

set_option autoImplicit false

namespace HybridMarkup

/-- What an iterator gives is determined by the state in which it is begun. -/
theorem Gives.unique {σ α : Type} {next : σ → Option (α × σ)} {s : σ} {l l' : List α}
    (h : Gives next s l) (h' : Gives next s l') : l = l' := by
  induction h generalizing l' with
  | done hend =>
    cases h' with
    | done _ => rfl
    | item hnext _ => simp [hend] at hnext
  | item hnext _ ih =>
    cases h' with
    | done hend => simp [hnext] at hend
    | item hnext' rest =>
      obtain ⟨rfl, rfl⟩ := Prod.mk.inj (Option.some.inj (hnext.symm.trans hnext'))
      rw [ih rest]

namespace Tree

variable {t t' : Tree} {i p x n child parent : Nat} {roots l stack m : List NodeId}

/-! ## Building without cycles -/

/-- A call that attaches a node that there is to another one, which neither is that node nor stands
under it. -/
def Permits (t : Tree) : BuildStep → Prop
  | .alloc _ _ => True
  | .attach child parent => child < t.size ∧ parent < t.size ∧ ¬ t.Under parent child

/-- Calls one after the other, each of them permitted when its turn comes. -/
def PermitsAll : Tree → List BuildStep → Prop
  | _, [] => True
  | t, step :: steps => t.Permits step ∧ PermitsAll (t.perform step) steps

theorem parent_attach (hchild : child < t.size) (hparent : parent < t.size) (j : Nat) :
    (t.attach child parent).parent j = if j = child then some parent else t.parent j := by
  have hdetach (hj : j ≠ child) : (t.detach child).parent j = t.parent j := by
    rcases t.parent_cases child with horphan | ⟨old, hold⟩
    · rw [detach_of_orphan horphan]
    · rw [parent_detach hold, if_neg hj]
  rw [attach_eq, (node_adopt (by rwa [size_detach]) (by rwa [size_detach]) j).1]
  split
  · rfl
  · next hj => exact hdetach hj

theorem Acyclic.congr (hac : t.Acyclic) (hparent : ∀ j, t'.parent j = t.parent j) : t'.Acyclic := by
  intro i p hp hunder
  rw [hparent] at hp
  exact hac i p hp (hunder.congr fun k => (hparent k).symm)

/-- What stands under a node when another one has been attached stood under it before, or stood
under the attached one and has come under the node with it. -/
theorem Under.of_attach (hchild : child < t.size) (hparent : parent < t.size)
    (h : (t.attach child parent).Under i x) :
    t.Under i x ∨ t.Under i child ∧ t.Under parent x := by
  -- from the node upwards: the first link that is new leads from the child to its new parent
  induction h using Relation.ReflTransGen.head_induction_on with
  | refl => exact .inl (.refl t x)
  | @head i p hp _ ih =>
    rw [parent_attach hchild hparent] at hp
    split at hp
    · next hi =>
      obtain rfl := Option.some.inj hp
      rw [hi]
      refine .inr ⟨.refl t child, ?_⟩
      rcases ih with hold | ⟨_, habove⟩
      · exact hold
      · exact habove
    · rcases ih with hold | ⟨hbelow, habove⟩
      · exact .inl (.of_parent hp hold)
      · exact .inr ⟨.of_parent hp hbelow, habove⟩

/-- **No cycle comes of attaching** a node to one that does not stand under it. -/
theorem Acyclic.attach (hac : t.Acyclic) (hchild : child < t.size) (hparent : parent < t.size)
    (hapart : ¬ t.Under parent child) : (t.attach child parent).Acyclic := by
  intro i p hp hunder
  have hbefore := hunder.of_attach hchild hparent
  rw [parent_attach hchild hparent] at hp
  split at hp
  · next hi =>
    obtain rfl := Option.some.inj hp
    rw [hi] at hbefore
    rcases hbefore with habove | ⟨habove, _⟩
    · exact hapart habove
    · exact hapart habove
  · rcases hbefore with hold | ⟨hbelow, habove⟩
    · exact hac i p hp hold
    -- the new link would have to be on the way, from the child, which is above, to what is below
    · have hup : t.Under i child := .of_parent hp hbelow
      exact hapart (Relation.ReflTransGen.trans habove hup)

/-- **A tree that is built by permitted calls** has no cycles. -/
theorem PermitsAll.build {steps : List BuildStep} (h : t.PermitsAll steps) (hbuilt : t.Built)
    (hac : t.Acyclic) : (t.build steps).Built ∧ (t.build steps).Acyclic := by
  induction steps generalizing t with
  | nil => exact ⟨hbuilt, hac⟩
  | cons step steps ih =>
    obtain ⟨hpermits, hrest⟩ := h
    cases step with
    | alloc data span =>
      exact ih hrest (hbuilt.alloc data span) (hac.congr (sameLinks_alloc t data span).parent)
    | attach child parent =>
      obtain ⟨hchild, hparent, hapart⟩ := hpermits
      exact ih hrest (hbuilt.attach hchild hparent) (hac.attach hchild hparent hapart)

theorem acyclic_start (dialect : Dialect) (text : Text) : (start dialect text).Acyclic := by
  apply acyclic_of_rank id
  intro i hi p hp
  have hi : i = 0 := Nat.lt_one_iff.1 hi
  subst hi
  exact absurd hp (by simp [start, Tree.parent, node])

/-! ## Climbing -/

/-- **From the roots to the leaves**: what holds of a node if it holds of its parent holds of every
node. -/
theorem Acyclic.fromRoots (hac : t.Acyclic) {P : Nat → Prop}
    (hstep : ∀ i : Nat, (∀ p : Nat, t.parent i = some p → P p) → P i) (i : Nat) : P i := by
  classical
  -- above a parent there are fewer nodes than above its child
  let above (i : Nat) : Finset Nat := (Finset.range t.size).filter fun j => t.Under i j
  induction hcard : (above i).card using Nat.strongRecOn generalizing i with
  | ind n ih =>
    apply hstep
    intro p hp
    refine ih _ ?_ p rfl
    rw [← hcard]
    refine Finset.card_lt_card (Finset.ssubset_iff_of_subset ?_ |>.2 ⟨i, ?_, ?_⟩)
    · intro j hj
      obtain ⟨hlt, hunder⟩ := Finset.mem_filter.1 hj
      exact Finset.mem_filter.2 ⟨hlt, .of_parent hp hunder⟩
    · exact Finset.mem_filter.2 ⟨Finset.mem_range.2 (lt_size_of_parent hp), .refl t i⟩
    · intro hi
      exact hac i p hp (Finset.mem_filter.1 hi).2

/-- Nodes of a tree that are listed once each are no more than there are. -/
theorem length_le_size (hnodup : l.Nodup) (hlt : ∀ x ∈ l, x < t.size) : l.length ≤ t.size := by
  have hsubset : l ⊆ List.range t.size := fun x hx => List.mem_range.2 (hlt x hx)
  simpa using (List.subperm_of_subset hnodup hsubset).length_le

/-- What is climbed to from a node is what the node stands under. -/
theorem mem_of_climb (h : Gives (successors t.parent) i l) (x : Nat) :
    x = i ∨ x ∈ l ↔ t.Under i x := by
  induction h with
  | @done i hend =>
    have horphan : t.parent i = none := Option.map_eq_none_iff.1 hend
    constructor
    · rintro (rfl | hx)
      · exact .refl t x
      · exact absurd hx List.not_mem_nil
    · intro hunder
      exact .inl (hunder.eq_of_orphan horphan)
  | @item i _ _ l hnext _ ih =>
    obtain ⟨p, hp, hpair⟩ := Option.map_eq_some_iff.1 hnext
    obtain ⟨rfl, rfl⟩ := Prod.mk.inj hpair
    rw [List.mem_cons, ih]
    constructor
    · rintro (rfl | hunder)
      · exact .refl t x
      · exact .of_parent hp hunder
    · intro hunder
      exact hunder.cases_parent hp

theorem nodup_of_climb (hac : t.Acyclic) (h : Gives (successors t.parent) i l) :
    (i :: l).Nodup := by
  induction h with
  | done => exact List.nodup_singleton _
  | @item i _ _ l hnext rest ih =>
    obtain ⟨p, hp, hpair⟩ := Option.map_eq_some_iff.1 hnext
    obtain ⟨rfl, rfl⟩ := Prod.mk.inj hpair
    refine List.nodup_cons.2 ⟨?_, ih⟩
    intro hi
    exact hac i p hp ((mem_of_climb rest i).1 (List.mem_cons.1 hi))

/-- Climbing with fuel comes to the same, as long as there is fuel. -/
theorem ancestorsIn_of_climb (h : Gives (successors t.parent) i l) {fuel : Nat}
    (hfuel : l.length ≤ fuel) : t.ancestorsIn fuel i = l := by
  induction h generalizing fuel with
  | @done i hend =>
    have horphan : t.parent i = none := Option.map_eq_none_iff.1 hend
    cases fuel with
    | zero => rfl
    | succ fuel => rw [ancestorsIn, horphan]
  | @item i _ _ l hnext _ ih =>
    obtain ⟨p, hp, hpair⟩ := Option.map_eq_some_iff.1 hnext
    obtain ⟨rfl, rfl⟩ := Prod.mk.inj hpair
    have hlength : l.length + 1 ≤ fuel := hfuel
    obtain ⟨fuel, rfl⟩ : ∃ k, fuel = k + 1 := ⟨fuel - 1, by omega⟩
    rw [ancestorsIn, hp]
    dsimp only
    rw [ih (by omega)]

/-- **To climb from a node comes to an end**, and gives its ancestors. -/
theorem Acyclic.gives_ancestors (hac : t.Acyclic) (hlinked : t.Linked) (i : Nat) :
    Gives (successors t.parent) i (t.ancestors i) := by
  obtain ⟨l, hl⟩ : ∃ l, Gives (successors t.parent) i l := by
    induction i using hac.fromRoots with
    | _ i ih =>
      rcases t.parent_cases i with horphan | ⟨p, hp⟩
      · exact ⟨[], .last horphan⟩
      · obtain ⟨l, hl⟩ := ih p hp
        exact ⟨p :: l, .successor hp hl⟩
  -- all that one comes to are nodes of the tree, and none of them twice
  obtain ⟨hi, hnodup⟩ := List.nodup_cons.1 (nodup_of_climb hac hl)
  have hlength : l.length ≤ t.size := by
    apply length_le_size hnodup
    intro x hx
    have hunder : t.Under i x := (mem_of_climb hl x).1 (.inr hx)
    rcases Relation.ReflTransGen.cases_tail hunder with rfl | ⟨c, _, hc⟩
    · exact absurd hx hi
    · exact hlinked.parent_lt_size hc
  rwa [ancestors, ancestorsIn_of_climb hl hlength]

namespace Acyclic

theorem mem_ancestors_iff (hac : t.Acyclic) (hlinked : t.Linked) :
    x = i ∨ x ∈ t.ancestors i ↔ t.Under i x :=
  mem_of_climb (hac.gives_ancestors hlinked i) x

theorem ancestors_of_orphan (hac : t.Acyclic) (hlinked : t.Linked) (h : t.parent i = none) :
    t.ancestors i = [] :=
  (hac.gives_ancestors hlinked i).unique (.last h)

theorem ancestors_eq_cons (hac : t.Acyclic) (hlinked : t.Linked) (hp : t.parent i = some p) :
    t.ancestors i = p :: t.ancestors p :=
  (hac.gives_ancestors hlinked i).unique (.successor hp (hac.gives_ancestors hlinked p))

theorem depth_eq (hac : t.Acyclic) (hlinked : t.Linked) (hp : t.parent i = some p) :
    t.depth i = t.depth p + 1 := by
  rw [depth, hac.ancestors_eq_cons hlinked hp]
  rfl

theorem depth_le (hac : t.Acyclic) (hlinked : t.Linked) (h : t.Under i x) :
    t.depth x ≤ t.depth i := by
  induction h with
  | refl => exact Nat.le_refl _
  | tail _ hp ih =>
    rw [hac.depth_eq hlinked hp] at ih
    omega

end Acyclic

/-- The way down to a node from the topmost one above it, each node on it a child of the one
before. -/
inductive WayTo (t : Tree) : NodeId → List NodeId → Prop where
  | top {i : NodeId} (h : t.parent i = none) : WayTo t i [i]
  | child {i p : NodeId} {way : List NodeId} (above : WayTo t p way) (h : i ∈ t.children p) :
      WayTo t i (way ++ [i])

/-- **The ancestors of a node are the way down to it**, read backwards and without the node. -/
theorem Acyclic.wayTo_iff (hac : t.Acyclic) (hlinked : t.Linked) {way : List NodeId} :
    t.WayTo n way ↔ way = (t.ancestors n).reverse ++ [n] := by
  constructor
  · intro h
    induction h with
    | @top i h => rw [hac.ancestors_of_orphan hlinked h, List.reverse_nil, List.nil_append]
    | @child i p way _ h ih =>
      rw [hac.ancestors_eq_cons hlinked (hlinked.mem_children_iff.1 h), List.reverse_cons, ih]
  · rintro rfl
    induction n using hac.fromRoots with
    | _ n ih =>
      rcases t.parent_cases n with horphan | ⟨p, hp⟩
      · rw [hac.ancestors_of_orphan hlinked horphan]
        exact .top horphan
      · rw [hac.ancestors_eq_cons hlinked hp, List.reverse_cons]
        exact .child (ih p hp) (hlinked.mem_children_iff.2 hp)

/-! ## Visiting -/

/-- The turn of the node that is last on the stack. It goes, and its children come in its place, the
first of them last. -/
def turn? (t : Tree) (stack : List NodeId) : Option (NodeId × List NodeId) :=
  stack.getLast?.map fun id => (id, stack.dropLast ++ (t.children id).reverse)

theorem turn?_concat (t : Tree) (stack : List NodeId) (i : Nat) :
    t.turn? (stack ++ [i]) = some (i, stack ++ (t.children i).reverse) := by
  rw [turn?, List.getLast?_concat, Option.map_some, List.dropLast_concat]

/-- **A visit gives what is listed**: the roots are on the stack, the first of them on top, and
behind their listing come what is given by the stack beneath. -/
theorem Lists.gives (h : t.Lists roots l) (hrest : Gives t.turn? stack m) :
    Gives t.turn? (stack ++ roots.reverse) (l ++ m) := by
  induction h generalizing stack m with
  | nil => rwa [List.reverse_nil, List.append_nil, List.nil_append]
  | @cons i rest below behind _ _ ihchildren ihsiblings =>
    rw [List.reverse_cons, ← List.append_assoc, List.cons_append]
    apply Gives.item (turn?_concat t _ i)
    rw [List.append_assoc below]
    exact ihchildren (ihsiblings hrest)

/-- There is one listing of nodes. -/
theorem Lists.unique {l' : List NodeId} (h : t.Lists roots l) (h' : t.Lists roots l') : l = l' := by
  induction h generalizing l' with
  | nil =>
    cases h'
    rfl
  | cons _ _ ihchildren ihsiblings =>
    cases h' with
    | cons children siblings => rw [ihchildren children, ihsiblings siblings]

theorem Lists.subset (h : t.Lists roots l) : roots ⊆ l := by
  induction h with
  | nil => exact List.Subset.refl _
  | cons _ _ _ ihsiblings =>
    apply List.cons_subset_cons
    exact List.Subset.trans ihsiblings (List.subset_append_right _ _)

/-- **Parents come before their children** in a listing. -/
theorem Lists.parent_first (h : t.Lists roots l) (hp : p ∈ l) (hchild : child ∈ t.children p) :
    [p, child].Sublist l := by
  induction h with
  | nil => exact absurd hp List.not_mem_nil
  | @cons i rest below behind hchildren _ ihchildren ihsiblings =>
    rcases List.mem_cons.1 hp with rfl | hp
    · have hbelow : child ∈ below := hchildren.subset hchild
      apply List.Sublist.cons_cons
      rw [List.singleton_sublist]
      exact List.mem_append_left behind hbelow
    · apply List.Sublist.cons
      rcases List.mem_append.1 hp with hp | hp
      · exact (ihchildren hp).trans (List.sublist_append_left below behind)
      · exact (ihsiblings hp).trans (List.sublist_append_right below behind)

namespace Acyclic

theorem length_descendants_le (hac : t.Acyclic) (hlinked : t.Linked) (hn : n < t.size) :
    (t.descendants n).length ≤ t.size := by
  obtain ⟨-, hnodup, hmem⟩ := descendants_lists hlinked hac hn
  apply length_le_size hnodup
  intro x hx
  rcases Relation.ReflTransGen.cases_head ((hmem x).1 hx) with rfl | ⟨p, hp, _⟩
  · exact hn
  · exact lt_size_of_parent hp

/-- **A dump has its lines in the order of the visit**, and more fuel than there are nodes makes no
difference to it. -/
theorem dumpIn_eq (hac : t.Acyclic) (hlinked : t.Linked) (hn : n < t.size) {fuel : Nat}
    (hfuel : t.size ≤ fuel) :
    t.dumpIn fuel 0 n
      = (t.descendants n).flatMap fun i => t.dumpLine (t.depth i - t.depth n) i ++ ['\n'] := by
  obtain ⟨hlists, -, hmem⟩ := descendants_lists hlinked hac hn
  have hlevel : ∀ i ∈ t.descendants n, ∀ c ∈ t.children i,
      t.depth c - t.depth n = t.depth i - t.depth n + 1 := by
    intro i hi c hc
    have hle : t.depth n ≤ t.depth i := hac.depth_le hlinked ((hmem i).1 hi)
    rw [hac.depth_eq hlinked (hlinked.mem_children_iff.1 hc)]
    omega
  have hlength := hac.length_descendants_le hlinked hn
  have hdump := hlists.dumpIn (fun i => t.depth i - t.depth n) hlevel fuel 0 (by omega) (by simp)
  rwa [List.flatMap_singleton] at hdump

end Acyclic

/-- **All ways through a tree agree.** Let a tree be built by calls in any order, none of which
attaches a node to itself or to what stands under it. To visit from a node comes to an end and gives
just the listing of the node: the node, and the listing of each of its children in order. What it
gives are the nodes from which one climbs to that node, and that node, each of them once, and
parents before their children. To climb from a node comes to an end and gives its ancestors, and
they are the one way down to it from its topmost ancestor, read backwards and without the node. The
dump has a line for each node in the order of the visit from the root. -/
theorem traversals_agree (dialect : Dialect) (text : Text) (steps : List BuildStep)
    (hsteps : (start dialect text).PermitsAll steps) :
    let t := (start dialect text).build steps
    (∀ n < t.size,
      Gives t.turn? [n] (t.descendants n) ∧
      (∀ l, t.Lists [n] l ↔ l = t.descendants n) ∧
      (∀ x, (t.descendants n).count x = if x = n ∨ n ∈ t.ancestors x then 1 else 0) ∧
      (∀ p ∈ t.descendants n, ∀ c ∈ t.children p, [p, c].Sublist (t.descendants n)) ∧
      Gives (successors t.parent) n (t.ancestors n) ∧
      ∀ way, t.WayTo n way ↔ way = (t.ancestors n).reverse ++ [n]) ∧
    t.dump = (t.preorder.flatMap fun i => t.dumpLine (t.depth i - t.depth root) i ++ ['\n']) ∧
    ∀ fuel, t.size ≤ fuel → t.dumpIn fuel 0 root = t.dump := by
  intro t
  obtain ⟨hbuilt, hac⟩ := hsteps.build (.start dialect text) (acyclic_start dialect text)
  have hlinked : t.Linked := hbuilt.linked
  have hdump {fuel : Nat} (hfuel : t.size ≤ fuel) := hac.dumpIn_eq hlinked hbuilt.size_pos hfuel
  refine ⟨?_, hdump (Nat.le_refl _), ?_⟩
  · intro n hn
    obtain ⟨hlists, hnodup, hmem⟩ := descendants_lists hlinked hac hn
    refine ⟨?_, ?_, ?_, ?_, hac.gives_ancestors hlinked n, ?_⟩
    · have hempty : Gives t.turn? [] [] := .done rfl
      have hgives := hlists.gives hempty
      rwa [List.append_nil] at hgives
    · intro l
      constructor
      · intro hl
        exact hl.unique hlists
      · rintro rfl
        exact hlists
    · intro x
      have hvisited : x ∈ t.descendants n ↔ x = n ∨ n ∈ t.ancestors x := by
        rw [hmem, ← hac.mem_ancestors_iff hlinked, eq_comm]
      rw [hnodup.count]
      exact if_congr hvisited rfl rfl
    · intro p hp c hc
      exact hlists.parent_first hp hc
    · intro way
      exact hac.wayTo_iff hlinked
  · intro fuel hfuel
    exact (hdump hfuel).trans (hdump (Nat.le_refl _)).symm

/-- A child of the root is moved under its sibling, and the root is put under another node. -/
theorem traversals_agree_uprooted :
    let leaf : BuildStep := .alloc .paragraph ⟨0, 0⟩
    let steps : List BuildStep :=
      [leaf, leaf, leaf, .attach 1 0, .attach 2 0, .attach 1 2, .attach 0 3]
    let t := (start .markdown []).build steps
    (start .markdown []).PermitsAll steps ∧ t.preorder = [0, 2, 1] ∧
      Gives t.turn? [3] [3, 0, 2, 1] ∧ t.Lists [3] [3, 0, 2, 1] ∧
      Gives (successors t.parent) 1 [2, 0, 3] ∧ t.WayTo 1 [3, 0, 2, 1] := by
  intro leaf steps t
  have hsteps : (start .markdown []).PermitsAll steps := by
    refine ⟨trivial, trivial, trivial, ⟨by decide, by decide, ?_⟩, ⟨by decide, by decide, ?_⟩,
      ⟨by decide, by decide, ?_⟩, ⟨by decide, by decide, ?_⟩, trivial⟩
    · intro h
      exact absurd (h.eq_of_orphan (by decide)) (by decide)
    · intro h
      exact absurd (h.eq_of_orphan (by decide)) (by decide)
    -- the sibling stands under the root, and the root under nothing yet
    · intro h
      rcases h.cases_parent (p := 0) (by decide) with heq | h
      · exact absurd heq (by decide)
      · exact absurd (h.eq_of_orphan (by decide)) (by decide)
    · intro h
      exact absurd (h.eq_of_orphan (by decide)) (by decide)
  obtain ⟨hnodes, -, -⟩ := traversals_agree .markdown [] steps hsteps
  obtain ⟨hgives, hlists, -⟩ := hnodes 3 (by decide)
  obtain ⟨-, -, -, -, hclimb, hway⟩ := hnodes 1 (by decide)
  have hdescendants : t.descendants 3 = [3, 0, 2, 1] := by decide
  have hancestors : t.ancestors 1 = [2, 0, 3] := by decide
  refine ⟨hsteps, by decide, ?_, ?_, ?_, ?_⟩
  · rwa [hdescendants] at hgives
  · exact (hlists _).2 hdescendants.symm
  · rwa [hancestors] at hclimb
  · apply (hway _).2
    rw [hancestors]
    rfl

end Tree

end HybridMarkup
