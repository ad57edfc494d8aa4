/-
Going through a tree from the top.

The emitters go through a tree by recursion: to a node, and from it to its children in turn, unless
the node is one that they do not enter. In a tree with its shape (`Tree.Shape`) this comes to the
nodes in the order of their numbers, each once, and to just those below which every ancestor is
entered (`Tree.walk_children`).

The proof follows the walk node by node. In front of node `k` the work that is left is `frontier
k`, the nodes from `k` on whose parent is in front of `k`. To go to `k` replaces it there by its
children, and since everything between `k` and a child of `k` stands below `k`, the children are in
front of all the others: the list is sorted again, and it is the next frontier.
-/
import HybridMarkup.Proofs.TreeShape

set_option autoImplicit false

namespace HybridMarkup

namespace Tree

variable {t : Tree} {edge i p : Nat}

/-! ## Ancestors -/

theorem ancestorsIn_congr (h : t.Shape edge) (n : Nat) :
    ∀ {i fuel fuel' : Nat}, i < n → i ≤ fuel → i ≤ fuel' →
      t.ancestorsIn fuel i = t.ancestorsIn fuel' i := by
  induction n with
  | zero => exact fun hi => absurd hi (Nat.not_lt_zero _)
  | succ n ih =>
    intro i fuel fuel' hi hfuel hfuel'
    rcases t.parent_cases i with hp | ⟨p, hp⟩
    · cases fuel <;> cases fuel' <;> simp [ancestorsIn, hp]
    · have hpi := h.parent_lt hp
      obtain ⟨fuel, rfl⟩ : ∃ k, fuel = k + 1 := ⟨fuel - 1, by omega⟩
      obtain ⟨fuel', rfl⟩ : ∃ k, fuel' = k + 1 := ⟨fuel' - 1, by omega⟩
      simp only [ancestorsIn, hp]
      rw [ih (by omega) (show p ≤ fuel by omega) (show p ≤ fuel' by omega)]

/-- The ancestors of a node are its parent and the ancestors of that. -/
theorem ancestors_of_parent (h : t.Shape edge) (hp : t.parent i = some p) :
    t.ancestors i = p :: t.ancestors p := by
  have hpi := h.parent_lt hp
  have hi := lt_size_of_parent hp
  obtain ⟨n, hn⟩ : ∃ n, t.size = n + 1 := ⟨t.size - 1, by omega⟩
  unfold ancestors
  rw [hn, ancestorsIn, hp]
  dsimp only
  rw [ancestorsIn_congr h (p + 1) (Nat.lt_succ_self p) (show p ≤ n by omega)
    (show p ≤ n + 1 by omega)]

theorem ancestors_root (h : t.Shape edge) : t.ancestors root = [] := by
  unfold ancestors
  cases t.size with
  | zero => rfl
  | succ n => rw [ancestorsIn, h.root]

/-- An ancestor is the parent of something. -/
theorem exists_child_of_mem_ancestors (h : t.Shape edge) {a : Nat} (ha : a ∈ t.ancestors i) :
    ∃ c : Nat, t.parent c = some a := by
  induction i using Nat.strongRecOn with
  | ind i ih =>
    rcases t.parent_cases i with hp | ⟨p, hp⟩
    · unfold ancestors at ha
      cases hsize : t.size <;> rw [hsize] at ha <;> simp [ancestorsIn, hp] at ha
    · rw [ancestors_of_parent h hp] at ha
      rcases List.mem_cons.1 ha with rfl | ha
      · exact ⟨i, hp⟩
      · exact ih p (h.parent_lt hp) ha

/-- Whether all ancestors of a node are entered. The root always is. -/
def seen (t : Tree) (enter : Nat → Bool) (i : Nat) : Bool :=
  (t.ancestors i).all fun a => a == root || enter a

theorem seen_of_parent (h : t.Shape edge) (enter : Nat → Bool) (hp : t.parent i = some p) :
    t.seen enter i = ((p == root || enter p) && t.seen enter p) := by
  rw [seen, ancestors_of_parent h hp, List.all_cons]
  rfl

/-- Where every parent is entered, all nodes are come to. -/
theorem seen_of_parents (h : t.Shape edge) {enter : Nat → Bool}
    (hparents : ∀ c a : Nat, t.parent c = some a → a = root ∨ enter a = true) (i : Nat) :
    t.seen enter i = true := by
  refine List.all_eq_true.2 fun a ha => ?_
  obtain ⟨c, hc⟩ := exists_child_of_mem_ancestors h ha
  rcases hparents c a hc with rfl | henter
  · rfl
  · rw [henter, Bool.or_true]

/-! ## The frontier -/

/-- Whether the parent of a node is in front of `k`. -/
def below (t : Tree) (k i : Nat) : Bool := (t.parent i).any fun p => decide (p < k)

/-- What is left to do in front of node `k`. -/
def frontier (t : Tree) (enter : Nat → Bool) (k : Nat) : List Nat :=
  (List.range' k (t.size - k)).filter fun i => t.below k i && t.seen enter i

theorem below_eq_true {k : Nat} (hp : t.parent i = some p) : t.below k i = decide (p < k) := by
  rw [below, hp]
  rfl

/-- Where all of one kind are in front of all of another, the two are found one after the other. -/
theorem filter_or_eq_append {P Q : Nat → Bool} {l : List Nat}
    (h : l.Pairwise fun a b => Q a = true → P b = false)
    (hne : ∀ a ∈ l, P a = true → Q a = false) :
    l.filter (fun a => P a || Q a) = l.filter P ++ l.filter Q := by
  induction l with
  | nil => rfl
  | cons a l ih =>
    obtain ⟨hhead, htail⟩ := List.pairwise_cons.1 h
    have ih := ih htail fun b hb => hne b (List.mem_cons_of_mem _ hb)
    cases hP : P a with
    | true =>
      have hQ := hne a List.mem_cons_self hP
      simp [hP, hQ, ih]
    | false =>
      cases hQ : Q a with
      | false => simp [hP, hQ, ih]
      | true =>
        have hnone : l.filter P = [] := List.filter_eq_nil_iff.2 fun b hb => by
          rw [hhead b hb hQ]
          decide
        simp [hP, hQ, ih, hnone]

/-- The children of a node are behind it. -/
theorem Shape.children_eq (h : t.Shape edge) {k : Nat} (hk : k < t.size) :
    t.children k = (List.range' (k + 1) (t.size - (k + 1))).filter
      fun i => t.parent i = some k := by
  have hsplit : List.range t.size
      = List.range' 0 (k + 1) ++ List.range' (k + 1) (t.size - (k + 1)) := by
    rw [List.range_eq_range', show t.size = k + 1 + (t.size - (k + 1)) by omega,
      ← List.range'_append]
    simp
  rw [h.listed k hk, hsplit, List.filter_append, List.filter_eq_nil_iff.2, List.nil_append]
  intro (j : Nat) hj
  have hjk : j < k + 1 := by simpa using List.mem_range'.1 hj
  have hne : t.parent j ≠ some k := fun hparent => by
    have := h.parent_lt hparent
    omega
  simpa using hne

/-- **The frontier moves on**: behind node `k` come its children, if it is entered, and then what
was left before. -/
theorem frontier_succ (h : t.Shape edge) (enter : Nat → Bool) {k : Nat} (hpos : 0 < k)
    (hk : k < t.size) :
    t.frontier enter (k + 1) = (if t.seen enter k && enter k then t.children k else []) ++
      (List.range' (k + 1) (t.size - (k + 1))).filter
        fun i => t.below k i && t.seen enter i := by
  have hrange {j : Nat} (hj : j ∈ List.range' (k + 1) (t.size - (k + 1))) :
      k < j ∧ j < t.size := by
    have := List.mem_range'_1.1 hj
    omega
  have hparent {j : Nat} (hj : j ∈ List.range' (k + 1) (t.size - (k + 1))) :
      ∃ p : Nat, p < j ∧ t.parent j = some p :=
    h.older j (by have := hrange hj; omega) (hrange hj).2
  -- a node behind `k` is in the next frontier if it is a child of `k`, or if it was in this one
  have hsplit : t.frontier enter (k + 1)
      = (List.range' (k + 1) (t.size - (k + 1))).filter fun i =>
          (decide (t.parent i = some k) && (t.seen enter k && enter k)) ||
            (t.below k i && t.seen enter i) := by
    refine List.filter_congr fun j hj => ?_
    obtain ⟨p, hpj, hp⟩ := hparent hj
    rw [below_eq_true hp, below_eq_true hp, hp]
    -- the parent of `j` is in front of `k`, or it is `k`, or it is behind `k`
    rcases Nat.lt_trichotomy p k with hlt | heq | hgt
    · simp [hlt, Nat.lt_succ_of_lt hlt, Nat.ne_of_lt hlt]
    · subst heq
      rw [seen_of_parent h enter hp]
      have hroot : (p == root) = false := by
        simpa [root] using Nat.ne_of_gt hpos
      simp [hroot, Bool.and_comm]
    · simp [Nat.not_lt_of_gt hgt, show ¬ p < k + 1 by omega, Nat.ne_of_gt hgt]
  rw [hsplit, filter_or_eq_append]
  · congr 1
    cases hseen : t.seen enter k && enter k with
    | false => simp
    | true => simpa using (h.children_eq hk).symm
  -- no child of `k` stands behind a node of the old frontier: what is between them is below `k`
  · refine (List.pairwise_lt_range' (s := k + 1) (n := t.size - (k + 1)) 1).imp_of_mem ?_
    intro a b ha hb hab hbelow
    obtain ⟨q, hqa, hq⟩ := hparent ha
    have hqk : q < k := by
      rw [below_eq_true hq] at hbelow
      simpa using (Bool.and_eq_true_iff.1 hbelow).1
    have hne : t.parent b ≠ some k := fun hparent => by
      obtain ⟨q', hkq, hq'⟩ := h.nested b a k hparent (hrange ha).1 hab
      rw [hq, Option.some.injEq] at hq'
      omega
    simp [hne]
  · intro a ha hchild
    have hparent : t.parent a = some k := by simpa using (Bool.and_eq_true_iff.1 hchild).1
    rw [below_eq_true hparent]
    simp

/-- In front of the first node below the root, the children of the root are left. -/
theorem frontier_one (h : t.Shape edge) (enter : Nat → Bool) :
    t.frontier enter 1 = t.children root := by
  have hsize : root < t.size := Nat.lt_of_le_of_lt (Nat.zero_le _) h.edge_lt
  rw [show t.children root = _ from h.children_eq (k := 0) hsize]
  refine List.filter_congr fun j hj => ?_
  have hj := List.mem_range'_1.1 hj
  obtain ⟨p, hpj, hp⟩ := h.older j (by omega) (by omega)
  rw [below_eq_true hp, hp]
  by_cases hzero : p = 0
  · subst hzero
    have hroot : t.seen enter 0 = true := by
      rw [seen, show t.ancestors 0 = [] from ancestors_root h]
      rfl
    rw [seen_of_parent h enter hp, hroot]
    simp [root]
  · simp [hzero]

/-! ## The walk -/

/-- Goes to a node, and to its children in turn if it is entered. -/
def walk {β : Type} (t : Tree) (enter : Nat → Bool) (step : β → Nat → β) : Nat → β → Nat → β
  | 0, b, _ => b
  | fuel + 1, b, i =>
    (if enter i then t.children i else []).foldl (walk t enter step fuel) (step b i)

section Walk

variable {β : Type} {enter : Nat → Bool} {step : β → Nat → β}

theorem mem_children (h : t.Shape edge) {k c : Nat} (hk : k < t.size) (hc : c ∈ t.children k) :
    k < c ∧ c < t.size := by
  rw [h.children_eq hk] at hc
  have := List.mem_range'_1.1 (List.mem_filter.1 hc).1
  omega

/-- The nodes behind a node are fuel enough for it. -/
theorem walk_congr (h : t.Shape edge) (n : Nat) :
    ∀ {i fuel fuel' : Nat} (b : β), i < t.size → t.size - i ≤ n → t.size - i ≤ fuel →
      t.size - i ≤ fuel' → t.walk enter step fuel b i = t.walk enter step fuel' b i := by
  induction n with
  | zero =>
    intro i fuel fuel' b hi hn
    omega
  | succ n ih =>
    intro i fuel fuel' b hi hn hfuel hfuel'
    obtain ⟨fuel, rfl⟩ : ∃ k, fuel = k + 1 := ⟨fuel - 1, by omega⟩
    obtain ⟨fuel', rfl⟩ : ∃ k, fuel' = k + 1 := ⟨fuel' - 1, by omega⟩
    unfold walk
    split
    · refine List.foldl_rel (r := Eq) rfl ?_
      rintro c hc b _ rfl
      obtain ⟨hic, hcs⟩ := mem_children h hi hc
      exact ih b hcs (by omega) (by omega) (by omega)
    · rfl

theorem walk_frontier (h : t.Shape edge) (n : Nat) :
    ∀ {k : Nat} (b : β), t.size - k = n → 0 < k →
      (t.frontier enter k).foldl (t.walk enter step t.size) b =
        ((List.range' k (t.size - k)).filter (t.seen enter)).foldl step b := by
  induction n with
  | zero =>
    intro k b hn _
    rw [frontier, hn]
    rfl
  | succ n ih =>
    intro k b hn hpos
    have hk : k < t.size := by omega
    have hnext : t.size - (k + 1) = n := by omega
    obtain ⟨p, hpk, hp⟩ := h.older k hpos hk
    have hbelow : t.below k k = true := by
      rw [below_eq_true hp]
      exact decide_eq_true hpk
    have hfrontier := frontier_succ h enter hpos hk
    rw [hnext] at hfrontier
    rw [frontier, hn, List.range'_succ, List.filter_cons, List.filter_cons, hbelow, Bool.true_and]
    cases hseen : t.seen enter k with
    | false =>
      rw [hseen] at hfrontier
      simp only [Bool.false_eq_true, if_false]
      rw [Bool.false_and, if_neg Bool.false_ne_true, List.nil_append] at hfrontier
      rw [← hfrontier, ih b hnext (Nat.succ_pos k), hnext]
    | true =>
      rw [hseen, Bool.true_and] at hfrontier
      simp only [if_true, List.foldl_cons]
      -- one fuel less is still enough for the children, which are all behind `k`
      have hwalk : t.walk enter step t.size b k
          = (if enter k then t.children k else []).foldl (t.walk enter step t.size) (step b k) := by
        obtain ⟨m, hm⟩ : ∃ m, t.size = m + 1 := ⟨t.size - 1, by omega⟩
        conv => lhs; rw [hm]; unfold walk
        split
        · refine List.foldl_rel (r := Eq) rfl ?_
          rintro c hc b _ rfl
          obtain ⟨hkc, hcs⟩ := mem_children h hk hc
          exact walk_congr h t.size b hcs (by omega) (by omega) (by omega)
        · rfl
      rw [hwalk, ← List.foldl_append, ← hfrontier, ih _ hnext (Nat.succ_pos k), hnext]

/-- **A walk comes to the nodes in their order**, and to those only whose ancestors are all
entered. -/
theorem walk_children (h : t.Shape edge) (b : β) :
    (t.children root).foldl (t.walk enter step t.size) b =
      ((List.range' 1 (t.size - 1)).filter (t.seen enter)).foldl step b := by
  rw [← frontier_one h enter]
  exact walk_frontier h _ b rfl Nat.one_pos

end Walk

/-! ## All nodes -/

theorem visit_frontier (h : t.Shape edge) (n : Nat) :
    ∀ {k fuel : Nat}, t.size - k = n → 0 < k → n ≤ fuel →
      t.visit fuel (t.frontier (fun _ => true) k) = List.range' k (t.size - k) := by
  have hall (i : Nat) : t.seen (fun _ => true) i = true := by simp [seen]
  induction n with
  | zero =>
    intro k fuel hn _ _
    rw [frontier, hn]
    cases fuel <;> rfl
  | succ n ih =>
    intro k fuel hn hpos hfuel
    have hk : k < t.size := by omega
    have hnext : t.size - (k + 1) = n := by omega
    obtain ⟨fuel, rfl⟩ : ∃ k, fuel = k + 1 := ⟨fuel - 1, by omega⟩
    obtain ⟨p, hpk, hp⟩ := h.older k hpos hk
    have hbelow : t.below k k = true := by
      rw [below_eq_true hp]
      exact decide_eq_true hpk
    have hfrontier := frontier_succ h (fun _ => true) hpos hk
    rw [hnext, hall, Bool.true_and, if_pos rfl] at hfrontier
    rw [frontier, hn, List.range'_succ, List.filter_cons, hbelow, hall, Bool.true_and, if_pos rfl,
      visit, ← hfrontier, ih hnext (Nat.succ_pos k) (by omega), hnext]

/-- The first node is the root. -/
theorem Shape.range_eq (h : t.Shape edge) :
    List.range t.size = Tree.root :: List.range' 1 (t.size - 1) := by
  have hedge := h.edge_lt
  obtain ⟨n, hn⟩ : ∃ n, t.size = n + 1 := ⟨t.size - 1, by omega⟩
  rw [hn, List.range_eq_range', List.range'_succ]
  rfl

/-- **The nodes in the order of the document are the nodes in the order of their numbers.** -/
theorem preorder_eq_range (h : t.Shape edge) : t.preorder = List.range t.size := by
  have hedge := h.edge_lt
  obtain ⟨n, hn⟩ : ∃ n, t.size = n + 1 := ⟨t.size - 1, by omega⟩
  have hvisit : t.visit n (t.frontier (fun _ => true) 1) = List.range' 1 (t.size - 1) :=
    visit_frontier h _ rfl Nat.one_pos (by omega)
  rw [frontier_one h] at hvisit
  unfold preorder descendants
  rw [h.range_eq, hn, visit, List.append_nil, hvisit, hn]

end Tree

end HybridMarkup
