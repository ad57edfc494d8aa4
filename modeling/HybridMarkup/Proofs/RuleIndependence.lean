/-
Rules do not see each other.

All rules append to one list, and the rules that are not asked are left out before the visit begins.
Here every rule of the table is taken through the visit, with nothing to say where it is not asked
(`Rule.answers`), so that the findings of two configurations can be compared rule by rule: what one
rule is set to has an effect on its own findings only (`LintConfig.lint_congr`).

One rule can fail, and then linting fails (`LintConfig.isSome_lint?_iff`). Which of the others are
asked, and with what level, makes no difference to that; to switch the rule itself off does.

The order of the findings is said by their places: the number of the node in the visit first, the
number of the rule in the table second (`LintConfig.InOrder`).

Main statement: `LintConfig.rules_independent`, for every tree that is built without cycles.
-/
import HybridMarkup.Lint
import HybridMarkup.Proofs.Listings

set_option autoImplicit false

namespace HybridMarkup

namespace Rule

variable {rule rule' : Rule} {s : Severity} {t : Tree} {id : NodeId} {d : Diagnostic}

/-- A rule of the table is known by its name. -/
theorem eq_of_name_eq (hrule : rule ∈ all) (hrule' : rule' ∈ all) (h : rule.name = rule'.name) :
    rule = rule' :=
  List.inj_on_of_nodup_map (f := Rule.name) (by decide) hrule hrule' h

/-- A rule objects to one span of a node at most. -/
theorem visit?_eq_nil_or_singleton (hrule : rule ∈ all) {spans : List Span}
    (h : rule.visit? t id = some spans) : spans = [] ∨ ∃ span, spans = [span] := by
  simp only [all, List.mem_cons, List.not_mem_nil, or_false] at hrule
  rcases hrule with rfl | rfl | rfl
  · simp only [inlineExpressionNewline] at h
    repeat' split at h
    all_goals
      obtain rfl := Option.some.inj h
      simp
  · simp only [directiveIfChain] at h
    repeat' split at h
    all_goals
      obtain rfl := Option.some.inj h
      simp
  · simp only [codeBlockLanguage] at h
    repeat' split at h
    · obtain ⟨span, -, rfl⟩ := Option.map_eq_some_iff.1 h
      exact .inr ⟨span, rfl⟩
    all_goals
      obtain rfl := Option.some.inj h
      simp

/-- The level has no say in what is found. -/
theorem findings_severity (rule : Rule) (s s' : Severity) (t : Tree) (id : NodeId) :
    rule.findings s t id = (rule.findings s' t id).map fun d => { d with severity := s } := by
  unfold findings findings?
  cases rule.visit? t id with
  | none => rfl
  | some spans =>
    rw [Option.map_some, Option.map_some, Option.getD_some, Option.getD_some, List.map_map]
    rfl

/-- What a rule says about a node if it is asked, and nothing otherwise. -/
def answers (rule : Rule) (severity : Severity) (t : Tree) (id : NodeId) : List Diagnostic :=
  if severity = .ignore then [] else rule.findings severity t id

@[simp] theorem answers_ignore : rule.answers .ignore t id = [] := if_pos rfl

theorem answers_of_ne (h : s ≠ .ignore) : rule.answers s t id = rule.findings s t id := if_neg h

theorem mem_answers_iff : d ∈ rule.answers s t id ↔ s ≠ .ignore ∧ d ∈ rule.findings s t id := by
  unfold answers
  split <;> simp_all

theorem answers_eq_nil_or_singleton (hrule : rule ∈ all) :
    rule.answers s t id = [] ∨ ∃ d, rule.answers s t id = [d] := by
  by_cases hs : s = .ignore
  · exact .inl (by rw [hs, answers_ignore])
  · rw [answers_of_ne hs, findings, findings?]
    cases h : rule.visit? t id with
    | none => exact .inl rfl
    | some spans =>
      rcases visit?_eq_nil_or_singleton hrule h with rfl | ⟨span, rfl⟩
      · exact .inl rfl
      · exact .inr ⟨_, rfl⟩

theorem name_of_mem_answers (h : d ∈ rule.answers s t id) : d.name = rule.name :=
  (mem_findings_iff.1 (mem_answers_iff.1 h).2).1

end Rule

namespace LintConfig

variable {c c' : LintConfig} {t : Tree} {rule : Rule} {s : Severity} {d : Diagnostic}

/-- Setting a level decides for the rule of that name, and for no other. -/
theorem severity_set {rule' : Rule} : (c.set rule.name.toList s).severity rule'
    = if rule'.name = rule.name then s else c.severity rule' := by
  rw [severity, set, List.lookup_cons]
  split
  · next hname =>
    have h : rule'.name = rule.name := String.toList_inj.1 (beq_iff_eq.1 hname)
    rw [if_pos h, Option.getD_some]
  · next hname =>
    have h : rule'.name ≠ rule.name := fun heq => by simp [heq] at hname
    rw [if_neg h, severity]

/-- The visit takes every rule of the table to every node. -/
theorem lint_eq_answers : c.lint t = t.preorder.flatMap fun id =>
    Rule.all.flatMap fun rule => rule.answers (c.severity rule) t id := by
  refine List.flatMap_congr fun id _ => ?_
  simp only [active, List.flatMap_def, List.filter_map, List.map_map]
  induction Rule.all with
  | nil => rfl
  | cons rule rules ih =>
    by_cases h : c.severity rule = .ignore
    · simpa [h] using ih
    · simpa [h, Rule.answers_of_ne h] using ih

/-! ## Two configurations -/

theorem severity_ne_ignore (h : d ∈ c.lint t) : d.severity ≠ .ignore := by
  obtain ⟨id, _, rule, _, hasked, hd⟩ := mem_lint_iff.1 h
  rw [(Rule.mem_findings_iff.1 hd).2.2.1]
  exact hasked

/-- **A rule has no say in the findings of the others.** Configurations that differ in the level of one
rule at most find the same, but for the findings of that rule. -/
theorem lint_congr (h : ∀ rule' ∈ Rule.all, rule'.name ≠ rule.name →
      c.severity rule' = c'.severity rule') :
    (c.lint t).filter (fun d => d.name ≠ rule.name)
      = (c'.lint t).filter fun d => d.name ≠ rule.name := by
  rw [lint_eq_answers, lint_eq_answers, List.filter_flatMap, List.filter_flatMap]
  refine List.flatMap_congr fun id _ => ?_
  rw [List.filter_flatMap, List.filter_flatMap]
  refine List.flatMap_congr fun rule' hrule' => ?_
  by_cases hname : rule'.name = rule.name
  · have hnone (s : Severity) :
        (rule'.answers s t id).filter (fun d => d.name ≠ rule.name) = [] := by
      refine List.filter_eq_nil_iff.2 fun d hd => ?_
      simp [Rule.name_of_mem_answers hd, hname]
    rw [hnone, hnone]
  · rw [h rule' hrule' hname]

/-- A rule that is switched off takes its own findings away. -/
theorem lint_set_ignore : (c.set rule.name.toList .ignore).lint t
    = (c.lint t).filter fun d => d.name ≠ rule.name := by
  rw [← lint_congr (c := c.set rule.name.toList .ignore) fun rule' _ hname => by
    rw [severity_set, if_neg hname]]
  refine (List.filter_eq_self.2 fun d hd => ?_).symm
  obtain ⟨id, _, rule', _, hasked, hd⟩ := mem_lint_iff.1 hd
  rw [severity_set] at hasked
  have hname : rule'.name ≠ rule.name := fun heq => hasked (if_pos heq)
  simp [(Rule.mem_findings_iff.1 hd).1, hname]

/-- A rule that is asked before and after gives its findings another level, and nothing else. -/
theorem lint_set (hrule : rule ∈ Rule.all) (hbefore : c.severity rule ≠ .ignore)
    (hafter : s ≠ .ignore) : (c.set rule.name.toList s).lint t
      = (c.lint t).map fun d => if d.name = rule.name then { d with severity := s } else d := by
  rw [lint_eq_answers, lint_eq_answers, List.map_flatMap]
  refine List.flatMap_congr fun id _ => ?_
  rw [List.map_flatMap]
  refine List.flatMap_congr fun rule' hrule' => ?_
  rw [severity_set]
  split
  · next hname =>
    obtain rfl := Rule.eq_of_name_eq hrule' hrule hname
    rw [Rule.answers_of_ne hafter, Rule.answers_of_ne hbefore,
      rule'.findings_severity s (c.severity rule')]
    refine List.map_congr_left fun d hd => ?_
    rw [if_pos (Rule.mem_findings_iff.1 hd).1]
  · next hname =>
    have hsame : ∀ d ∈ rule'.answers (c.severity rule') t id,
        (if d.name = rule.name then { d with severity := s } else d) = d := by
      intro d hd
      rw [if_neg (Rule.name_of_mem_answers hd ▸ hname)]
    rw [List.map_congr_left hsame, List.map_id']

/-! ## Failures -/

/-- **Linting fails** just if the rule about languages is asked and the opening line of a block ends
before the block begins. -/
theorem isSome_lint?_iff : (c.lint? t).isSome ↔ (c.severity Rule.codeBlockLanguage ≠ .ignore →
    ∀ id ∈ t.preorder, ¬ Rule.OpensBackwards t id) := by
  rw [isSome_lint?]
  constructor
  · intro h hasked id hid
    exact (Rule.isSome_codeBlockLanguage_iff t id).1
      (h id hid Rule.codeBlockLanguage (by simp [Rule.all]) hasked)
  · intro h id hid rule hrule hasked
    simp only [Rule.all, List.mem_cons, List.not_mem_nil, or_false] at hrule
    rcases hrule with rfl | rfl | rfl
    · exact Rule.isSome_inlineExpressionNewline t id
    · exact Rule.isSome_directiveIfChain t id
    · exact (Rule.isSome_codeBlockLanguage_iff t id).2 (h hasked id hid)

/-- A block that begins at 1, behind the end of its opening line. -/
example :
    let block : CodeBlock :=
      { lang := none, attrs := [], text := [], contentSpan := ⟨1, 1⟩, openerEnd := 0 }
    let t := (Tree.start .markdown ['a']).sprout (.codeBlock block) ⟨1, 1⟩ 0
    (({} : LintConfig).set "code-block-language".toList .warn).lint? t = none ∧
      ({} : LintConfig).lint? t = some [] := by decide

/-- A configuration that asks no rule which another one does not ask fails no more often. -/
theorem isSome_lint?_of_isSome (h : (c.lint? t).isSome)
    (hasked : c'.severity Rule.codeBlockLanguage ≠ .ignore →
      c.severity Rule.codeBlockLanguage ≠ .ignore) : (c'.lint? t).isSome := by
  rw [isSome_lint?_iff] at h ⊢
  intro hasked'
  exact h (hasked hasked')

/-- What is true of the findings is true of linting, if both configurations fail or neither. -/
theorem lint?_eq_map {change : List Diagnostic → List Diagnostic}
    (hsome : (c'.lint? t).isSome ↔ (c.lint? t).isSome) (hchange : c'.lint t = change (c.lint t)) :
    c'.lint? t = (c.lint? t).map change := by
  cases h : c.lint? t with
  | none =>
    rw [h] at hsome
    rw [Option.map_none, ← Option.not_isSome_iff_eq_none, hsome]
    exact Bool.false_ne_true
  | some found =>
    rw [h] at hsome
    obtain ⟨found', h'⟩ := Option.isSome_iff_exists.1 (hsome.2 rfl)
    rw [Option.map_some, h', eq_lint h', hchange, eq_lint h]

/-- **A rule that is switched off**, where linting has not failed with it. -/
theorem lint?_set_ignore {found : List Diagnostic} (h : c.lint? t = some found) :
    (c.set rule.name.toList .ignore).lint? t = some (found.filter fun d => d.name ≠ rule.name) := by
  have hsome : (c.lint? t).isSome := by rw [h, Option.isSome_some]
  have hsome' : ((c.set rule.name.toList .ignore).lint? t).isSome := by
    apply isSome_lint?_of_isSome hsome
    rw [severity_set]
    split
    · intro hasked
      exact absurd rfl hasked
    · exact id
  rw [lint?_eq_map (iff_of_true hsome' hsome) lint_set_ignore, h, Option.map_some]

/-- **A rule that is asked before and after** a change of its level. -/
theorem lint?_set (hrule : rule ∈ Rule.all) (hbefore : c.severity rule ≠ .ignore)
    (hafter : s ≠ .ignore) : (c.set rule.name.toList s).lint? t
      = (c.lint? t).map fun found => found.map fun d =>
          if d.name = rule.name then { d with severity := s } else d := by
  have hasked : (c.set rule.name.toList s).severity Rule.codeBlockLanguage ≠ .ignore ↔
      c.severity Rule.codeBlockLanguage ≠ .ignore := by
    rw [severity_set]
    split
    · next hname =>
      rw [← Rule.eq_of_name_eq (by simp [Rule.all]) hrule hname] at hbefore
      exact iff_of_true hafter hbefore
    · exact Iff.rfl
  apply lint?_eq_map _ (lint_set hrule hbefore hafter)
  constructor
  · intro h
    exact isSome_lint?_of_isSome h hasked.2
  · intro h
    exact isSome_lint?_of_isSome h hasked.1

/-! ## Places -/

/-- At a place, that is a number of a node in the visit and a number of a rule in the table, the rule
is asked about the node and says this. -/
def Says (c : LintConfig) (t : Tree) (place : Nat × Nat) (d : Diagnostic) : Prop :=
  ∃ id rule, t.preorder[place.1]? = some id ∧ Rule.all[place.2]? = some rule ∧
    c.severity rule ≠ .ignore ∧ d ∈ rule.findings (c.severity rule) t id

/-- The findings are what is said at the places, each place stands in front of the next one, by the
node first and by the rule second, and nothing else is said at any place. -/
structure InOrder (c : LintConfig) (t : Tree) (places : List (Nat × Nat)) (ds : List Diagnostic) :
    Prop where
  said : List.Forall₂ (c.Says t) places ds
  sorted : places.Pairwise (Prod.Lex (· < ·) (· < ·))
  complete : ∀ place d, c.Says t place d → (place, d) ∈ places.zip ds

/-- The findings, each with its place. -/
def placed (c : LintConfig) (t : Tree) : List ((Nat × Nat) × Diagnostic) :=
  t.preorder.zipIdx.flatMap fun node => Rule.all.zipIdx.flatMap fun rule =>
    (rule.1.answers (c.severity rule.1) t node.1).map fun d => ((node.2, rule.2), d)

theorem map_snd_placed : (c.placed t).map Prod.snd = c.lint t := by
  have hunnumbered {α β : Type} (f : α → List β) (l : List α) :
      (l.zipIdx.flatMap fun x => f x.1) = l.flatMap f := by
    rw [← List.flatMap_map Prod.fst, List.zipIdx_map_fst]
  simp only [placed, List.map_flatMap, List.map_map, Function.comp_def, List.map_id']
  rw [lint_eq_answers, ← hunnumbered _ t.preorder]
  refine List.flatMap_congr fun node _ => ?_
  exact hunnumbered (fun rule => rule.answers (c.severity rule) t node.1) Rule.all

theorem mem_placed_iff {place : Nat × Nat} : (place, d) ∈ c.placed t ↔ c.Says t place d := by
  simp only [placed, List.mem_flatMap, List.mem_map, Prod.exists, List.mem_zipIdx_iff_getElem?,
    Rule.mem_answers_iff, Says]
  constructor
  · rintro ⟨id, i, hid, rule, k, hrule, d', ⟨hasked, hd⟩, heq⟩
    obtain ⟨rfl, rfl⟩ := Prod.mk.inj heq
    exact ⟨id, rule, hid, hrule, hasked, hd⟩
  · rintro ⟨id, rule, hid, hrule, hasked, hd⟩
    exact ⟨id, place.1, hid, rule, place.2, hrule, d, ⟨hasked, hd⟩, rfl⟩

theorem pairwise_zipIdx {α : Type} (l : List α) : l.zipIdx.Pairwise fun x y => x.2 < y.2 := by
  have h : (l.zipIdx.map Prod.snd).Pairwise (· < ·) := by
    rw [List.zipIdx_map_snd]
    exact List.pairwise_lt_range' 1
  exact List.pairwise_map.1 h

/-- Nodes come in the order of the visit, rules in that of the table, and a rule says one thing of a
node at most. -/
theorem pairwise_placed :
    (c.placed t).Pairwise fun x y => Prod.Lex (· < ·) (· < ·) x.1 y.1 := by
  refine List.pairwise_flatMap.2 ⟨fun node _ => List.pairwise_flatMap.2 ⟨fun rule hrule => ?_, ?_⟩, ?_⟩
  · have hrule : rule.1 ∈ Rule.all := List.fst_mem_of_mem_zipIdx hrule
    have hanswers : rule.1.answers (c.severity rule.1) t node.1 = [] ∨
        ∃ d, rule.1.answers (c.severity rule.1) t node.1 = [d] :=
      Rule.answers_eq_nil_or_singleton hrule
    rcases hanswers with h | ⟨d, h⟩
    · rw [h, List.map_nil]
      exact .nil
    · rw [h, List.map_singleton]
      exact List.pairwise_singleton _ _
  · refine (pairwise_zipIdx Rule.all).imp fun hlt x hx y hy => ?_
    obtain ⟨d, _, rfl⟩ := List.mem_map.1 hx
    obtain ⟨d', _, rfl⟩ := List.mem_map.1 hy
    exact .right _ hlt
  · refine (pairwise_zipIdx t.preorder).imp fun hlt x hx y hy => ?_
    simp only [List.mem_flatMap, List.mem_map] at hx hy
    obtain ⟨_, _, d, _, rfl⟩ := hx
    obtain ⟨_, _, d', _, rfl⟩ := hy
    exact .left _ _ hlt

theorem inOrder : c.InOrder t ((c.placed t).map Prod.fst) (c.lint t) := by
  rw [← map_snd_placed]
  constructor
  · rw [List.forall₂_map_left_iff, List.forall₂_map_right_iff, List.forall₂_same]
    exact fun x hx => mem_placed_iff.1 hx
  · exact List.pairwise_map.2 pairwise_placed
  · intro place d hsays
    rw [← List.unzip_fst, ← List.unzip_snd, List.zip_unzip]
    exact mem_placed_iff.2 hsays

/-- **Rules are independent.** In a tree that is built without cycles let linting find something or
nothing, but not fail. A rule that is switched off takes its own findings away, and all others stay
as they are, in their order. No finding is to be ignored. The findings come in the order of the
nodes, every node before what stands under it and after its elder siblings with all that stands
under them, and at one node in the order of the table; and every rule that is asked is taken to
every node under the root. Whether linting fails or not, a rule that is asked before and after a
change of its level gives its own findings the new level, and nothing else changes. Linting fails
just if the rule about languages is asked about a block whose opening line ends before the block
begins. -/
theorem rules_independent (c : LintConfig) (t : Tree) (hbuilt : t.Built) (hac : t.Acyclic) :
    (∀ found, c.lint? t = some found →
      (∀ rule ∈ Rule.all, (c.set rule.name.toList .ignore).lint? t
        = some (found.filter fun d => d.name ≠ rule.name)) ∧
      (∀ d ∈ found, d.severity ≠ .ignore) ∧
      ∃ places, c.InOrder t places found) ∧
    (∀ rule ∈ Rule.all, ∀ s : Severity, c.severity rule ≠ .ignore → s ≠ .ignore →
      (c.set rule.name.toList s).lint? t = (c.lint? t).map fun found => found.map fun d =>
        if d.name = rule.name then { d with severity := s } else d) ∧
    ((c.lint? t).isSome ↔ (c.severity Rule.codeBlockLanguage ≠ .ignore →
      ∀ x, t.Under x Tree.root → ¬ Rule.OpensBackwards t x)) ∧
    t.Lists [Tree.root] t.preorder ∧ t.preorder.Nodup ∧
      ∀ x : Nat, x ∈ t.preorder ↔ t.Under x Tree.root := by
  obtain ⟨hlists, hnodup, hmem⟩ := Tree.descendants_lists hbuilt.linked hac hbuilt.size_pos
  refine ⟨?_, ?_, ?_, hlists, hnodup, hmem⟩
  · intro found h
    refine ⟨fun _ _ => lint?_set_ignore h, ?_, ?_⟩
    · intro d hd
      rw [eq_lint h] at hd
      exact severity_ne_ignore hd
    · rw [eq_lint h]
      exact ⟨_, inOrder⟩
  · intro rule hrule s hbefore hafter
    exact lint?_set hrule hbefore hafter
  · rw [isSome_lint?_iff]
    exact imp_congr_right fun _ => forall_congr' fun x => imp_congr_left (hmem x)

/-- An alternative without a condition stands in front of an expression over two lines. Without the
rule for alternatives the expression is still found, and with a warning only it comes second. -/
theorem rules_independent_two :
    let t := ((Tree.start .mdx "v-else\x7b\n\x7d".toList).sprout
      (.directive (Directive.ofRaw "v-else".toList)) ⟨0, 6⟩ 0).sprout
      (.expressionStatement "\n".toList ⟨7, 8⟩ true) ⟨6, 9⟩ 0
    let c : LintConfig := {}
    let found := c.lint t
    t.Built ∧ t.Acyclic ∧ c.lint? t = some found ∧
      found.map (fun d => (d.name, d.severity))
        = [("directive-if-chain", .error), ("inline-expression-newline", .error)] ∧
      (c.set "directive-if-chain".toList .ignore).lint? t
        = some (found.filter fun d => d.name ≠ "directive-if-chain") ∧
      (c.set "inline-expression-newline".toList .warn).lint? t
        = some (found.map fun d =>
          if d.name = "inline-expression-newline" then { d with severity := .warn } else d) ∧
      ∃ places, c.InOrder t places found := by
  intro t c found
  have hbuilt : t.Built := by
    refine .sprout (.sprout (.start _ _) ?_ _ _) ?_ _ _ <;> decide
  have hac : t.Acyclic := Tree.acyclic_of_rank id (by decide)
  have hfound : c.lint? t = some found := by decide +kernel
  obtain ⟨hreturns, hset, -⟩ := rules_independent c t hbuilt hac
  obtain ⟨hignore, -, hplaces⟩ := hreturns found hfound
  have hwarn := hset Rule.inlineExpressionNewline (by simp [Rule.all]) .warn (by decide) (by decide)
  rw [hfound, Option.map_some] at hwarn
  exact ⟨hbuilt, hac, hfound, by decide +kernel, hignore Rule.directiveIfChain (by simp [Rule.all]),
    hwarn, hplaces⟩

end LintConfig

end HybridMarkup
