/-
Alternatives and the conditions they go back to.

The rule for alternatives looks one step back: the element in front must be a condition or another
alternative. Where the rule has nothing to object to in a whole tree, this leads back to a condition
(`Tree.ConditionChain`), because the element in front is visited as well, and it stands at a lower
place among the children of the same parent.

Two things are not asked by the rule. A directive may hang on something that is no element, and the
root of a tree may have been attached to a node itself; the siblings that it has then are not
visited, and with an alternative at the root the way back can be lost
(`LintConfig.alternatives_uprooted`).

Main statement: `LintConfig.alternatives_follow`, for every tree that is built without cycles.
-/
import HybridMarkup.Lint
import HybridMarkup.Proofs.Listings
import Mathlib.Data.List.Chain
import Mathlib.Data.List.TakeWhile

set_option autoImplicit false

namespace HybridMarkup

namespace Tree

variable {t : Tree} {a b i p first last : Nat} {links : List NodeId}

/-! ## Chains of conditions -/

/-- The node has a directive of the given name. -/
def Carries (t : Tree) (i : NodeId) (name : String) : Prop :=
  ∃ c ∈ t.children i, ∃ d, t.data c = .directive d ∧ d.name = name.toList

/-- The node is a comment, or a text of blanks only. -/
def IsPadding (t : Tree) (i : NodeId) : Prop :=
  (∃ text, t.data i = .comment text) ∨ ∃ text, t.data i = .text text ∧ ∀ c ∈ text, Text.isBlank c

/-- Of the children of `p` the node `b` stands behind `a`, and between them there is padding only. -/
def Follows (t : Tree) (p a b : NodeId) : Prop :=
  ∃ front between back, t.children p = front ++ a :: (between ++ b :: back) ∧
    ∀ i ∈ between, t.IsPadding i

/-- Siblings that follow each other from a condition over alternatives to the last one. -/
structure ConditionChain (t : Tree) (p first : NodeId) (links : List NodeId) (last : NodeId) :
    Prop where
  siblings : ∀ i ∈ first :: (links ++ [last]), t.parent i = some p
  follow : (first :: (links ++ [last])).IsChain (t.Follows p)
  elements : ∀ i ∈ first :: links, t.kind i = .element
  condition : t.Carries first "if"
  alternatives : ∀ i ∈ links, t.Carries i "else-if"

end Tree

namespace Rule

variable {t : Tree} {a b e p : Nat}

/-! ## What the rule asks -/

theorem hasDirective_iff {names : List Text} :
    hasDirective t names e = true
      ↔ ∃ c ∈ t.children e, ∃ d, t.data c = .directive d ∧ d.name ∈ names := by
  rw [hasDirective, List.any_eq_true]
  refine exists_congr fun c => and_congr_right fun _ => ?_
  cases t.data c <;> simp

theorem isInterlude_iff : isInterlude t e = true ↔ t.IsPadding e := by
  unfold isInterlude Tree.IsPadding
  cases t.data e <;> simp [Text.isAllBlank]

/-- An element is no padding. -/
theorem not_isInterlude (h : t.kind a = .element) : isInterlude t a = false := by
  unfold isInterlude
  cases hdata : t.data a <;> simp [Tree.kind, hdata, NodeData.kind] at h
  rfl

theorem previousElement_of_parent (hlinked : t.Linked) (hp : t.parent e = some p) :
    previousElement t e = some a ↔ t.Follows p a e ∧ t.kind a = .element := by
  obtain ⟨before, after, hsplit⟩ := hlinked.exists_split hp
  rw [previousElement, Option.filter_eq_some_iff, beq_iff_eq, hlinked.siblingsBefore_eq hsplit]
  refine and_congr_left fun helement => ?_
  constructor
  · intro hhead
    obtain ⟨farther, hfarther⟩ := List.head?_eq_some_iff.1 hhead
    -- seen from the node, the padding comes first and then the element
    have hseen : before.reverse.takeWhile (isInterlude t) ++ a :: farther = before.reverse := by
      rw [← hfarther, List.takeWhile_append_dropWhile]
    have hbefore : farther.reverse ++ a :: (before.reverse.takeWhile (isInterlude t)).reverse
        = before := by
      simpa using congrArg List.reverse hseen
    refine ⟨farther.reverse, (before.reverse.takeWhile (isInterlude t)).reverse, after, ?_, ?_⟩
    · rw [hsplit, ← List.cons_append, ← List.append_assoc, hbefore]
    · intro i hi
      exact isInterlude_iff.1 (List.mem_takeWhile_imp (List.mem_reverse.1 hi))
  · rintro ⟨front, between, back, hchildren, hpadding⟩
    rw [← List.cons_append, ← List.append_assoc] at hchildren
    -- both ways the node has the place that it says it has
    have hbefore : before = front ++ a :: between := by
      have hlength : before.length = (front ++ a :: between).length :=
        (hlinked.of_split hsplit).2.symm.trans (hlinked.of_split hchildren).2
      exact (List.append_inj (hsplit.symm.trans hchildren) hlength).1
    rw [hbefore, List.reverse_append, List.reverse_cons, List.append_assoc,
      List.dropWhile_append_of_pos, List.singleton_append, List.dropWhile_cons_of_neg]
    · rfl
    · rw [not_isInterlude helement]
      exact Bool.false_ne_true
    · exact fun i hi => isInterlude_iff.2 (hpadding i (List.mem_reverse.1 hi))

/-- **The element in front** is found just where it is followed. -/
theorem previousElement_eq_some_iff (hlinked : t.Linked) :
    previousElement t e = some a ↔ ∃ p, t.Follows p a e ∧ t.kind a = .element := by
  have hparent {p : Nat} (h : t.Follows p a e) : t.parent e = some p := by
    obtain ⟨front, between, back, hchildren, _⟩ := h
    exact hlinked.mem_children_iff.1 (by simp [hchildren])
  constructor
  · intro hprevious
    rcases t.parent_cases e with hnone | ⟨p, hp⟩
    · rw [previousElement, Tree.siblingsBefore, hnone] at hprevious
      simp at hprevious
    · exact ⟨p, (previousElement_of_parent hlinked hp).1 hprevious⟩
  · rintro ⟨p, hfollows, helement⟩
    exact (previousElement_of_parent hlinked (hparent hfollows)).2 ⟨hfollows, helement⟩

/-- The rule asks something of the directives for alternatives only. -/
def IsAlternative (d : Directive) : Prop := d.name = "else".toList ∨ d.name = "else-if".toList

/-- **The rule has no objection** to an alternative just if the element in front of its node is a
condition or another alternative. -/
theorem visit?_directiveIfChain_eq_nil_iff (hlinked : t.Linked) {id : Nat} {d : Directive}
    (hd : t.data id = .directive d) (halternative : IsAlternative d) (hid : t.parent id = some e) :
    directiveIfChain.visit? t id = some [] ↔ ∃ p a, t.Follows p a e ∧ t.kind a = .element ∧
      (t.Carries a "if" ∨ t.Carries a "else-if") := by
  have hcondition (a : Nat) : hasDirective t ["if".toList, "else-if".toList] a = true
      ↔ t.Carries a "if" ∨ t.Carries a "else-if" := by
    rw [hasDirective_iff]
    unfold Tree.Carries
    simp only [List.mem_cons, List.not_mem_nil, or_false, and_or_left, exists_or]
  have hvisit : directiveIfChain.visit? t id
      = if ((t.parent id).bind (previousElement t)).any
          (hasDirective t ["if".toList, "else-if".toList]) then some [] else some [t.span id] := by
    have hasked : (d.name = "else".toList || d.name = "else-if".toList) = true := by
      rwa [Bool.or_eq_true, decide_eq_true_iff, decide_eq_true_iff]
    simp only [directiveIfChain, hd]
    rw [if_pos hasked]
  have hnil : directiveIfChain.visit? t id = some [] ↔
      ((t.parent id).bind (previousElement t)).any
        (hasDirective t ["if".toList, "else-if".toList]) = true := by
    rw [hvisit, ite_eq_left_iff]
    constructor
    · exact fun hspan => by_contra fun hnot => List.cons_ne_nil _ _ (Option.some.inj (hspan hnot))
    · exact fun hchained hnot => absurd hchained hnot
  rw [hnil, hid, Option.bind_some, Option.any_eq_true]
  simp only [previousElement_eq_some_iff hlinked, hcondition]
  constructor
  · rintro ⟨a, ⟨p, hfollows, helement⟩, hcarries⟩
    exact ⟨p, a, hfollows, helement, hcarries⟩
  · rintro ⟨p, a, hfollows, helement, hcarries⟩
    exact ⟨a, ⟨p, hfollows, helement⟩, hcarries⟩

end Rule

namespace Tree

variable {t : Tree} {a e p first : Nat} {links : List NodeId}

/-! ## The way back -/

theorem Follows.parents (h : t.Follows p a e) (hlinked : t.Linked) :
    t.parent a = some p ∧ t.parent e = some p := by
  obtain ⟨front, between, back, hchildren, _⟩ := h
  exact ⟨hlinked.mem_children_iff.1 (by simp [hchildren]),
    hlinked.mem_children_iff.1 (by simp [hchildren])⟩

/-- What is followed stands at a lower place. -/
theorem Follows.slot_lt (h : t.Follows p a e) (hlinked : t.Linked) :
    (t.node a).slot < (t.node e).slot := by
  obtain ⟨front, between, back, hchildren, _⟩ := h
  have ha := (hlinked.of_split hchildren).2
  rw [← List.cons_append, ← List.append_assoc] at hchildren
  have he := (hlinked.of_split hchildren).2
  rw [ha, he, List.length_append, List.length_cons]
  omega

/-- A condition and what follows it. -/
theorem ConditionChain.single (hlinked : t.Linked) (h : t.Follows p a e)
    (helement : t.kind a = .element) (hcondition : t.Carries a "if") :
    t.ConditionChain p a [] e := by
  obtain ⟨ha, he⟩ := h.parents hlinked
  refine ⟨?_, by simpa using h, ?_, hcondition, fun i hi => absurd hi List.not_mem_nil⟩
  · intro i hi
    rcases List.mem_cons.1 hi with rfl | hi
    · exact ha
    · rw [List.mem_singleton.1 hi]
      exact he
  · intro i hi
    rw [List.mem_singleton.1 hi]
    exact helement

/-- A chain goes on behind its last alternative. -/
theorem ConditionChain.snoc (hchain : t.ConditionChain p first links a) (hlinked : t.Linked)
    (h : t.Follows p a e) (helement : t.kind a = .element)
    (halternative : t.Carries a "else-if") : t.ConditionChain p first (links ++ [a]) e := by
  refine ⟨?_, ?_, ?_, hchain.condition, ?_⟩
  · intro i hi
    rw [← List.cons_append, List.mem_append] at hi
    rcases hi with hi | hi
    · exact hchain.siblings i hi
    · rw [List.mem_singleton.1 hi]
      exact (h.parents hlinked).2
  · rw [← List.cons_append]
    refine List.isChain_append.2 ⟨hchain.follow, List.isChain_singleton _, fun x hx y hy => ?_⟩
    rw [← List.cons_append, List.getLast?_concat] at hx
    obtain rfl := Option.some.inj hx
    obtain rfl := Option.some.inj hy
    exact h
  · intro i hi
    rw [← List.cons_append, List.mem_append] at hi
    rcases hi with hi | hi
    · exact hchain.elements i hi
    · rw [List.mem_singleton.1 hi]
      exact helement
  · intro i hi
    rcases List.mem_append.1 hi with hi | hi
    · exact hchain.alternatives i hi
    · rw [List.mem_singleton.1 hi]
      exact halternative

/-- **Where the rule objects to nothing**, every alternative goes back to a condition. The root may
be an alternative only if it has no siblings. -/
theorem exists_conditionChain (hlinked : t.Linked) (hac : t.Acyclic) (hsize : 0 < t.size)
    (hclean : ∀ id ∈ t.preorder, Rule.directiveIfChain.visit? t id = some []) (e : Nat)
    (hunder : t.Under e root) (hroot : e = root → t.parent root = none)
    (hcarries : t.Carries e "else" ∨ t.Carries e "else-if") :
    ∃ p first links, t.ConditionChain p first links e := by
  induction hslot : (t.node e).slot using Nat.strongRecOn generalizing e with
  | ind n ih =>
    obtain ⟨id, hid, d, hd, halternative⟩ : ∃ id ∈ t.children e, ∃ d, t.data id = .directive d ∧
        Rule.IsAlternative d := by
      rcases hcarries with ⟨c, hc, d, hd, hname⟩ | ⟨c, hc, d, hd, hname⟩
      · exact ⟨c, hc, d, hd, .inl hname⟩
      · exact ⟨c, hc, d, hd, .inr hname⟩
    have hparent : t.parent id = some e := hlinked.mem_children_iff.1 hid
    have hvisited : id ∈ t.preorder :=
      ((descendants_lists hlinked hac hsize).2.2 id).2 (.of_parent hparent hunder)
    obtain ⟨p, a, hfollows, helement, hback⟩ :=
      (Rule.visit?_directiveIfChain_eq_nil_iff hlinked hd halternative hparent).1
        (hclean id hvisited)
    rcases hback with hcondition | halternative
    · exact ⟨p, a, [], .single hlinked hfollows helement hcondition⟩
    -- the element in front has the same parent, which is under the root like the node
    obtain ⟨ha, he⟩ := hfollows.parents hlinked
    have hp : t.Under p root := by
      rcases hunder.cases_parent he with heq | hp
      · rw [← heq, hroot heq.symm] at he
        simp at he
      · exact hp
    have hne : a ≠ root := by
      rintro rfl
      exact hac _ p ha hp
    obtain ⟨q, first, links, hchain⟩ := ih _ (hslot ▸ hfollows.slot_lt hlinked) a
      (.of_parent ha hp) (fun heq => absurd heq hne) (.inr halternative) rfl
    obtain rfl : q = p := by
      have hq := hchain.siblings a (by simp)
      rw [ha, Option.some.injEq] at hq
      exact hq.symm
    exact ⟨q, first, links ++ [a], hchain.snoc hlinked hfollows helement halternative⟩

end Tree

namespace LintConfig

/-- A rule without findings in a tree, and without failures, has none at any node of it. -/
theorem visit?_eq_nil_of_clean {c : LintConfig} {t : Tree} {rule : Rule} (hrule : rule ∈ Rule.all)
    (hsome : ∀ id, (rule.visit? t id).isSome) (hactive : c.severity rule ≠ .ignore)
    (hclean : ∀ d ∈ c.lint t, d.name ≠ rule.name) :
    ∀ id ∈ t.preorder, rule.visit? t id = some [] := by
  intro id hid
  obtain ⟨spans, hspans⟩ := Option.isSome_iff_exists.1 (hsome id)
  rw [hspans, Option.some.injEq, List.eq_nil_iff_forall_not_mem]
  intro span hspan
  have hfound : rule.finding (c.severity rule) span ∈ c.lint t :=
    mem_lint_iff.2 ⟨id, hid, rule, hrule, hactive,
      Rule.mem_findings_iff.2 ⟨rfl, rfl, rfl, spans, hspans, hspan⟩⟩
  exact hclean _ hfound rfl

/-- **Where linting has no objection, alternatives follow conditions.** In a tree that is built without
cycles let the rule for alternatives be asked and find nothing. Every node under the root that is an
alternative, the root itself only if it has not been attached, stands behind siblings that lead back
to a condition: the first of them is one, all others are alternatives that go on, all of them are
elements, and between two of them there are comments and blank texts only. -/
theorem alternatives_follow (c : LintConfig) (t : Tree) (hbuilt : t.Built) (hac : t.Acyclic)
    (hactive : c.severity Rule.directiveIfChain ≠ .ignore)
    (hclean : ∀ d ∈ c.lint t, d.name ≠ Rule.directiveIfChain.name) (e : NodeId)
    (hunder : t.Under e Tree.root) (hroot : e = Tree.root → t.parent Tree.root = none)
    (hcarries : t.Carries e "else" ∨ t.Carries e "else-if") :
    ∃ p first links, t.ConditionChain p first links e :=
  Tree.exists_conditionChain hbuilt.linked hac hbuilt.size_pos
    (visit?_eq_nil_of_clean (by simp [Rule.all]) (Rule.isSome_directiveIfChain t) hactive hclean)
    e hunder hroot hcarries

/-- A condition, a comment, an alternative that goes on, and the last one. -/
theorem alternatives_follow_twice :
    let element : NodeData := .element { tag := "p".toList, selfClose := true }
    let directive (raw : String) : NodeData := .directive (Directive.ofRaw raw.toList)
    let t := ((((((Tree.start .template []).sprout element ⟨0, 0⟩ 0).sprout (directive "v-if")
      ⟨0, 0⟩ 1).sprout (.comment []) ⟨0, 0⟩ 0).sprout element ⟨0, 0⟩ 0).sprout
      (directive "v-else-if") ⟨0, 0⟩ 4).sprout element ⟨0, 0⟩ 0
    let t := t.sprout (directive "v-else") ⟨0, 0⟩ 6
    ∃ p first links, t.ConditionChain p first links 6 := by
  intro element directive t₆ t
  have hbuilt : t.Built := by
    refine .sprout (.sprout (.sprout (.sprout (.sprout (.sprout (.sprout (.start _ _) ?_ _ _)
      ?_ _ _) ?_ _ _) ?_ _ _) ?_ _ _) ?_ _ _) ?_ _ _ <;> decide
  refine alternatives_follow {} t hbuilt ?_ (by decide) ?_ 6 ?_ ?_ ?_
  · exact Tree.acyclic_of_rank id (by decide)
  · decide +kernel
  · exact .of_parent (by decide) (.refl t 0)
  · decide
  · exact .inl ⟨7, by decide, Directive.ofRaw "v-else".toList, by decide, by decide⟩

/-- A tree in which the root is an alternative, and stands behind another one that has no condition
in front. Under the root a paragraph is an alternative. -/
def uprooted : Tree :=
  let element : NodeData := .element { tag := "p".toList, selfClose := true }
  let directive (raw : String) : NodeData := .directive (Directive.ofRaw raw.toList)
  let t := ((Tree.start .template []).alloc .paragraph ⟨0, 0⟩).2
  let t := (t.sprout element ⟨0, 0⟩ 1).sprout (directive "v-else-if") ⟨0, 0⟩ 2
  let t := (t.attach 0 1).sprout (directive "v-else") ⟨0, 0⟩ 0
  let t := (t.sprout element ⟨0, 0⟩ 0).sprout (directive "v-if") ⟨0, 0⟩ 5
  (t.sprout .paragraph ⟨0, 0⟩ 0).sprout (directive "v-else") ⟨0, 0⟩ 7

/-- Without a word from the rule an alternative may go back to no condition, if it is the root and has
siblings, and it may be no element. -/
theorem alternatives_uprooted :
    uprooted.Built ∧ uprooted.Acyclic ∧
      ({} : LintConfig).severity Rule.directiveIfChain ≠ .ignore ∧
      ({} : LintConfig).lint uprooted = [] ∧
      (uprooted.Under 0 Tree.root ∧ uprooted.Carries 0 "else" ∧
        ¬ ∃ p first links, uprooted.ConditionChain p first links 0) ∧
      uprooted.Under 7 Tree.root ∧ uprooted.Carries 7 "else" ∧ uprooted.kind 7 ≠ .element := by
  have hbuilt : uprooted.Built := by
    refine .sprout (.sprout (.sprout (.sprout (.sprout (.attach (.sprout (.sprout (.alloc
      (.start _ _) _ _) ?_ _ _) ?_ _ _) ?_ ?_) ?_ _ _) ?_ _ _) ?_ _ _) ?_ _ _) ?_ _ _ <;>
      decide +kernel
  have hac : uprooted.Acyclic := by
    -- the paragraph above the root comes first, then the root, then all others
    refine Tree.acyclic_of_rank (fun i => if i = 1 then 0 else if i = 0 then 1 else i) ?_
    decide +kernel
  have hother : ∀ i < uprooted.size, uprooted.parent i = some 1 →
      Rule.hasDirective uprooted ["if".toList] i = false := by decide +kernel
  refine ⟨hbuilt, hac, by decide, by decide +kernel, ⟨.refl _ 0, ?_, ?_⟩, ?_, ?_, by decide +kernel⟩
  · exact ⟨4, by decide +kernel, Directive.ofRaw "v-else".toList, by decide +kernel, by decide⟩
  · rintro ⟨p, first, links, hchain⟩
    have hroot : uprooted.parent 0 = some 1 := by decide +kernel
    have hp : p = 1 := by
      have hlast := hchain.siblings 0 (by simp)
      rw [hroot, Option.some.injEq] at hlast
      exact hlast.symm
    have hfirst : uprooted.parent first = some 1 := hp ▸ hchain.siblings first List.mem_cons_self
    obtain ⟨c, hc, d, hd, hname⟩ := hchain.condition
    have hcarries : Rule.hasDirective uprooted ["if".toList] first = true :=
      Rule.hasDirective_iff.2 ⟨c, hc, d, hd, by simp [hname]⟩
    rw [hother first (Tree.lt_size_of_parent hfirst) hfirst] at hcarries
    exact Bool.false_ne_true hcarries
  · exact .of_parent (by decide +kernel) (.refl _ 0)
  · exact ⟨8, by decide +kernel, Directive.ofRaw "v-else".toList, by decide +kernel, by decide⟩

end LintConfig

end HybridMarkup
