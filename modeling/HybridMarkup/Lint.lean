/-
Lint rules over a finished syntax tree.

A rule looks at one node and answers the spans it objects to; the name, the message and the
severity are the same for all of them. Linting visits the tree once in document order and asks
every active rule about every node, in the order of the table. A rule whose severity is `ignore`
is not asked at all.

A tree that was built by hand can say of a code block that its opening line ends before the block
begins. There is no such span, so the rule that objects to the opening line fails there, and linting
fails as a whole (`LintConfig.lint?`). `LintConfig.lint` is what it finds where no rule fails
(`LintConfig.eq_lint`).
-/
import HybridMarkup.Diagnostic
import HybridMarkup.Tree

set_option autoImplicit false

namespace HybridMarkup

/-- A check with its severity when nothing is configured. -/
structure Rule where
  name : String
  defaultSeverity : Severity
  message : String
  /-- The spans the rule objects to at a node. The rule fails where it would have to make a span
  that ends before it begins. -/
  visit? : Tree → NodeId → Option (List Span)

/-- Severities by rule name, the latest first, on top of the defaults. -/
structure LintConfig where
  severities : List (Text × Severity) := []
deriving DecidableEq, Repr, Inhabited

namespace LintConfig

/-- Configures one rule. -/
def set (c : LintConfig) (rule : Text) (severity : Severity) : LintConfig :=
  ⟨(rule, severity) :: c.severities⟩

/-- Reads pairs of a rule name and a level. -/
def ofLevels (levels : List (Text × Text)) : LintConfig :=
  levels.foldl (fun c (rule, level) => c.set rule (Severity.ofLevel level)) {}

/-- The severity of a rule under the configuration. -/
def severity (c : LintConfig) (rule : Rule) : Severity :=
  (c.severities.lookup rule.name.toList).getD rule.defaultSeverity

end LintConfig

namespace Rule

/-- An expression in the flow of a paragraph must stay on its line. -/
def inlineExpressionNewline : Rule where
  name := "inline-expression-newline"
  defaultSeverity := .error
  message := "Inline expression can't contain blank lines."
  visit? t id :=
    match t.data id with
    | .expressionStatement text _ true =>
      if text.any fun c => c == '\n' || c == '\x0c' then some [t.span id] else some []
    | _ => some []

/-- Whether an element has a directive of one of the given names. -/
def hasDirective (t : Tree) (names : List Text) (element : NodeId) : Bool :=
  (t.children element).any fun child =>
    match t.data child with
    | .directive d => names.contains d.name
    | _ => false

/-- Whether a node may stand between the links of a chain of conditions. -/
def isInterlude (t : Tree) (id : NodeId) : Bool :=
  match t.data id with
  | .comment _ => true
  | .text text => Text.isAllBlank text
  | _ => false

/-- The element in front of a node, looking past comments and blank text only. -/
def previousElement (t : Tree) (id : NodeId) : Option NodeId :=
  ((t.siblingsBefore id).dropWhile (isInterlude t)).head?.filter fun sibling =>
    t.kind sibling == .element

/-- An alternative must follow the condition it is an alternative to. -/
def directiveIfChain : Rule where
  name := "directive-if-chain"
  defaultSeverity := .error
  message := "v-else/v-else-if has no adjacent v-if or v-else-if."
  visit? t id :=
    match t.data id with
    | .directive d =>
      if d.name = "else".toList || d.name = "else-if".toList then
        let isChained := ((t.parent id).bind (previousElement t)).any
          (hasDirective t ["if".toList, "else-if".toList])
        if isChained then some [] else some [t.span id]
      else some []
    | _ => some []

/-- A fenced block should say which language it is in. -/
def codeBlockLanguage : Rule where
  name := "code-block-language"
  defaultSeverity := .ignore
  message := "Fenced code block has no language."
  visit? t id :=
    match t.data id with
    | .codeBlock block =>
      if block.lang.isNone then
        (Span.ordered? (t.span id).start block.openerEnd).map fun opener => [opener]
      else some []
    | _ => some []

/-- The rules, in the order in which their findings at one node are listed. -/
def all : List Rule := [inlineExpressionNewline, directiveIfChain, codeBlockLanguage]

/-- The opening line of a code block without a language ends before the block begins. -/
def OpensBackwards (t : Tree) (id : NodeId) : Prop :=
  ∃ block, t.data id = .codeBlock block ∧ block.lang = none ∧ block.openerEnd < (t.span id).start

/-- The rules about expressions and alternatives object to nodes, which have a span. -/
theorem isSome_inlineExpressionNewline (t : Tree) (id : NodeId) :
    (inlineExpressionNewline.visit? t id).isSome := by
  simp only [inlineExpressionNewline]
  repeat' split
  all_goals rfl

theorem isSome_directiveIfChain (t : Tree) (id : NodeId) :
    (directiveIfChain.visit? t id).isSome := by
  simp only [directiveIfChain]
  repeat' split
  all_goals rfl

/-- The rule about languages has to make a span. -/
theorem isSome_codeBlockLanguage_iff (t : Tree) (id : NodeId) :
    (codeBlockLanguage.visit? t id).isSome ↔ ¬ OpensBackwards t id := by
  simp only [codeBlockLanguage, OpensBackwards]
  split
  · next block hdata =>
    rw [hdata]
    simp only [NodeData.codeBlock.injEq, exists_eq_left', Option.isNone_iff_eq_none]
    split
    · next hlang =>
      rw [Option.isSome_map, Span.isSome_ordered?]
      simp [hlang]
    · next hlang => simp [hlang]
  · next hother =>
    simp only [Option.isSome_some, true_iff, not_exists, not_and]
    intro block hblock
    exact absurd hblock (hother block)

/-- What a rule says of a span it objects to. -/
def finding (rule : Rule) (severity : Severity) (span : Span) : Diagnostic :=
  { name := rule.name, message := rule.message, severity, span }

/-- The findings of a rule at a node, unless it fails there. -/
def findings? (rule : Rule) (severity : Severity) (t : Tree) (id : NodeId) :
    Option (List Diagnostic) :=
  (rule.visit? t id).map fun spans => spans.map (rule.finding severity)

/-- The findings of a rule at a node, of which there are none where it fails. -/
def findings (rule : Rule) (severity : Severity) (t : Tree) (id : NodeId) : List Diagnostic :=
  (rule.findings? severity t id).getD []

theorem mem_findings_iff {rule : Rule} {severity : Severity} {t : Tree} {id : NodeId}
    {d : Diagnostic} : d ∈ rule.findings severity t id ↔
      d.name = rule.name ∧ d.message = rule.message ∧ d.severity = severity ∧
        ∃ spans, rule.visit? t id = some spans ∧ d.span ∈ spans := by
  have hmem : d ∈ rule.findings severity t id ↔
      ∃ spans, rule.visit? t id = some spans ∧ ∃ span ∈ spans, rule.finding severity span = d := by
    unfold findings findings?
    cases rule.visit? t id <;> simp
  rw [hmem]
  constructor
  · rintro ⟨spans, hspans, span, hspan, rfl⟩
    exact ⟨rfl, rfl, rfl, spans, hspans, hspan⟩
  · rintro ⟨hname, hmessage, hseverity, spans, hspans, hspan⟩
    exact ⟨spans, hspans, d.span, hspan, by rw [finding, ← hname, ← hmessage, ← hseverity]⟩

end Rule

/-- What is found at each element, one after the other, unless something fails. -/
def collect? {α β : Type} (find? : α → Option (List β)) : List α → Option (List β)
  | [] => some []
  | x :: xs => (find? x).bind fun found => (collect? find? xs).map (found ++ ·)

theorem isSome_collect? {α β : Type} (find? : α → Option (List β)) (xs : List α) :
    (collect? find? xs).isSome ↔ ∀ x ∈ xs, (find? x).isSome := by
  induction xs with
  | nil => simp [collect?]
  | cons x xs ih =>
    cases hx : find? x with
    | none => simp [collect?, hx]
    | some found => simp [collect?, hx, ih]

/-- What is found in all is what is found at each element. -/
theorem eq_of_collect? {α β : Type} {find? : α → Option (List β)} {xs : List α} {found : List β}
    (h : collect? find? xs = some found) : found = xs.flatMap fun x => (find? x).getD [] := by
  induction xs generalizing found with
  | nil => exact (Option.some.inj h).symm
  | cons x xs ih =>
    obtain ⟨first, hfirst, h⟩ := Option.bind_eq_some_iff.1 h
    obtain ⟨rest, hrest, rfl⟩ := Option.map_eq_some_iff.1 h
    rw [List.flatMap_cons, hfirst, Option.getD_some, ← ih hrest]

namespace LintConfig

/-- The rules that are asked under the configuration, with their severities. -/
def active (c : LintConfig) : List (Rule × Severity) :=
  (Rule.all.map fun rule => (rule, c.severity rule)).filter fun (_, severity) =>
    severity != .ignore

/-- The findings of all rules in a tree, unless one of them fails. -/
def lint? (c : LintConfig) (t : Tree) : Option (List Diagnostic) :=
  collect? (fun id => collect? (fun (rule, severity) => rule.findings? severity t id) c.active)
    t.preorder

/-- The findings of all rules in a tree, of which there are none where a rule fails. In the tree of
a parsed document no rule does. -/
def lint (c : LintConfig) (t : Tree) : List Diagnostic :=
  t.preorder.flatMap fun id =>
    c.active.flatMap fun (rule, severity) => rule.findings severity t id

theorem mem_active_iff {c : LintConfig} {rule : Rule} {severity : Severity} :
    (rule, severity) ∈ c.active ↔
      rule ∈ Rule.all ∧ severity = c.severity rule ∧ c.severity rule ≠ .ignore := by
  simp only [active, List.mem_filter, List.mem_map, Prod.mk.injEq, bne_iff_ne]
  constructor
  · rintro ⟨⟨rule, hrule, rfl, rfl⟩, hasked⟩
    exact ⟨hrule, rfl, hasked⟩
  · rintro ⟨hrule, rfl, hasked⟩
    exact ⟨⟨rule, hrule, rfl, rfl⟩, hasked⟩

/-- What a rule that is asked says is found, and nothing else is. -/
theorem mem_lint_iff {c : LintConfig} {t : Tree} {d : Diagnostic} : d ∈ c.lint t ↔
    ∃ id ∈ t.preorder, ∃ rule ∈ Rule.all,
      c.severity rule ≠ .ignore ∧ d ∈ rule.findings (c.severity rule) t id := by
  simp only [lint, List.mem_flatMap, Prod.exists, mem_active_iff]
  constructor
  · rintro ⟨id, hid, rule, _, ⟨hrule, rfl, hasked⟩, hd⟩
    exact ⟨id, hid, rule, hrule, hasked, hd⟩
  · rintro ⟨id, hid, rule, hrule, hasked, hd⟩
    exact ⟨id, hid, rule, _, ⟨hrule, rfl, hasked⟩, hd⟩

/-- Linting fails just if a rule that is asked does. -/
theorem isSome_lint? (c : LintConfig) (t : Tree) : (c.lint? t).isSome ↔
    ∀ id ∈ t.preorder, ∀ rule ∈ Rule.all, c.severity rule ≠ .ignore →
      (rule.visit? t id).isSome := by
  simp only [lint?, isSome_collect?, Rule.findings?, Option.isSome_map, Prod.forall,
    mem_active_iff]
  constructor
  · intro h id hid rule hrule hasked
    exact h id hid rule _ ⟨hrule, rfl, hasked⟩
  · rintro h id hid rule _ ⟨hrule, -, hasked⟩
    exact h id hid rule hrule hasked

/-- If it does not fail, its findings are those of all rules. -/
theorem eq_lint {c : LintConfig} {t : Tree} {found : List Diagnostic}
    (h : c.lint? t = some found) : found = c.lint t := by
  obtain rfl := eq_of_collect? h
  have hsome : ∀ id ∈ t.preorder,
      (collect? (fun (entry : Rule × Severity) => entry.1.findings? entry.2 t id) c.active).isSome :=
    (isSome_collect? _ t.preorder).1 (by rw [← lint?, h, Option.isSome_some])
  unfold lint
  rw [List.flatMap_def, List.flatMap_def]
  congr 1
  apply List.map_congr_left
  intro id hid
  obtain ⟨there, hthere⟩ := Option.isSome_iff_exists.1 (hsome id hid)
  rw [hthere, Option.getD_some]
  exact eq_of_collect? hthere

end LintConfig

end HybridMarkup
