/-
What is reported.

A token reports faults of a few kinds only (`TokenKind.reports`), apart from the fault that it has
itself, and nothing that has been reported is taken back: what is said of the diagnostics of a draft
is said again after each of these reports (`Diagnostics.Adds`). There is one lemma for each rule that
reports something; the other rules do not come near the diagnostics. The lint rules, which come
last, have names of their own (`LintConfig.filter_lint`).
-/
import HybridMarkup.Proofs.ClosingDown

set_option autoImplicit false

namespace HybridMarkup

/-- The faults that the rule of the token may report. -/
def TokenKind.reports : TokenKind → List ParseError
  | codeBlockAttribute => [.attributeDuplicate]
  | attributeName | directiveName => [.attributeDuplicate, .commandDuplicate]
  | endTagClose => [.tagUnclosed, .mustacheEndExpected, .extraCloseTag]
  | _ => []

/-- Some of these faults are reported, one after another. -/
inductive Diagnostics.Adds (faults : List ParseError) (s : Diagnostics) : Diagnostics → Prop where
  | refl : Adds faults s s
  | push {s' : Diagnostics} {error : ParseError} (more : Adds faults s s') (fault : error ∈ faults)
      (span : Span) : Adds faults s (s'.push (error.entry span))

theorem Diagnostics.Adds.trans {faults : List ParseError} {s s' s'' : Diagnostics}
    (h : s.Adds faults s') (h' : s'.Adds faults s'') : s.Adds faults s'' := by
  induction h' with
  | refl => exact h
  | push _ fault span ih => exact ih.push fault span

/-- **Lint rules** have names of their own, under which they report. -/
theorem LintConfig.exists_rule_of_mem_lint {c : LintConfig} {t : Tree} {x : Diagnostic}
    (hx : x ∈ c.lint t) : ∃ rule ∈ Rule.all, x.name = rule.name := by
  obtain ⟨_, _, rule, hrule, _, hx⟩ := mem_lint_iff.1 hx
  exact ⟨rule, hrule, (Rule.mem_findings_iff.1 hx).1⟩

/-- What is looked for under other names is not among the findings of the lint rules. -/
theorem LintConfig.filter_lint {p : Diagnostic → Bool} (hp : Diagnostic.ByName p)
    (hnot : ∀ rule ∈ Rule.all, p ⟨rule.name, rule.message, rule.defaultSeverity, ⟨0, 0⟩⟩ = false)
    (c : LintConfig) (t : Tree) : (c.lint t).filter p = [] := by
  refine List.filter_eq_nil_iff.2 fun x hx => ?_
  obtain ⟨rule, hrule, hname⟩ := exists_rule_of_mem_lint hx
  have hfound : p x = false :=
    (hp x ⟨rule.name, rule.message, rule.defaultSeverity, ⟨0, 0⟩⟩ hname).trans (hnot rule hrule)
  simp [hfound]

/-- **Reports under other names** change nothing about these. -/
theorem Diagnostics.Adds.filter_eq {faults : List ParseError} {s s' : Diagnostics}
    {p : Diagnostic → Bool} (h : s.Adds faults s') (hp : Diagnostic.ByName p)
    (hnot : ∀ error ∈ faults, ∀ span, p (error.entry span) = false) :
    s'.entries.filter p = s.entries.filter p := by
  induction h with
  | refl => rfl
  | push _ fault span ih => rw [filter_push_other hp (hnot _ fault span), ih]

namespace Draft

variable {d d' d'' : Draft} {faults : List ParseError} {data : NodeData} {t : Token}

/-- From one draft to the other some of these faults are reported. -/
def Reports (faults : List ParseError) (d d' : Draft) : Prop :=
  d.diagnostics.Adds faults d'.diagnostics

theorem reports_of_eq (h : d'.diagnostics = d.diagnostics) : d.Reports faults d' := by
  unfold Reports
  rw [h]
  exact .refl

theorem Reports.trans (h : d.Reports faults d') (h' : d'.Reports faults d'') :
    d.Reports faults d'' :=
  Diagnostics.Adds.trans h h'

/-- What happens to the tree is no matter. -/
theorem Reports.congr (h : d.Reports faults d') (hsame : d''.diagnostics = d'.diagnostics) :
    d.Reports faults d'' :=
  h.trans (reports_of_eq hsame)

theorem reports_report {error : ParseError} (hfault : error ∈ faults) (d : Draft) (span : Span) :
    d.Reports faults (d.report error span) :=
  Diagnostics.Adds.push .refl hfault span

theorem reports_codeBlockAttribute (hfault : .attributeDuplicate ∈ faults) (d : Draft) (t : Token) :
    d.Reports faults (d.codeBlockAttribute t) := by
  unfold codeBlockAttribute
  split
  · dsimp only
    split
    · exact reports_of_eq rfl
    · split
      · exact reports_report hfault (d.setCurrent _) _
      · exact reports_of_eq rfl
  · exact reports_of_eq rfl

theorem reports_attributeName (hattribute : .attributeDuplicate ∈ faults)
    (hcommand : .commandDuplicate ∈ faults) : d.Reports faults (d.attributeName t data) := by
  have hopen : d.Reports faults (d.leaveAttribute.openNode data t.span) :=
    reports_of_eq d.diagnostics_leaveAttribute
  unfold attributeName
  dsimp only
  split
  · next error hduplicate =>
    obtain ⟨sibling, _, hsibling⟩ := List.exists_of_findSome?_eq_some hduplicate
    refine hopen.trans (reports_report ?_ _ _)
    rcases duplicateOf?_cases hsibling with rfl | rfl
    · exact hattribute
    · exact hcommand
  · exact hopen

section Closing

variable (htag : .tagUnclosed ∈ faults) (hmustache : .mustacheEndExpected ∈ faults)
include htag hmustache

theorem reports_closeUnterminated (d : Draft) (stop : Nat) :
    d.Reports faults (d.closeUnterminated stop) := by
  unfold closeUnterminated
  refine Reports.congr ?_ (diagnostics_close _ _)
  dsimp only
  split
  · exact reports_report htag (d.setCurrent _) _
  · exact reports_report hmustache d _
  · split
    · exact reports_report htag d _
    · exact reports_of_eq rfl

theorem reports_closeDownTo (target start fuel : Nat) :
    ∀ d : Draft, d.Reports faults (closeDownTo target start fuel d) := by
  induction fuel with
  | zero => exact fun d => reports_of_eq rfl
  | succ fuel ih =>
    intro d
    unfold closeDownTo
    split
    · exact reports_of_eq rfl
    · exact ((reports_of_eq (d.diagnostics_setEndTagStart _ _)).trans
        (reports_closeUnterminated htag hmustache _ start)).trans (ih _)

theorem reports_finishIn (stop fuel : Nat) :
    ∀ d : Draft, d.Reports faults (finishIn fuel stop d) := by
  induction fuel with
  | zero => exact fun d => reports_of_eq rfl
  | succ fuel ih =>
    intro d
    unfold finishIn
    split
    · exact reports_of_eq rfl
    · exact ((reports_of_eq (d.diagnostics_supplyEndTagStart _)).trans
        (reports_closeUnterminated htag hmustache _ stop)).trans (ih _)

theorem reports_endTagClose (hextra : .extraCloseTag ∈ faults) (d : Draft) (stop : Nat) :
    d.Reports faults (d.endTagClose stop) := by
  unfold endTagClose
  split
  · exact reports_of_eq rfl
  · have hnext : d.Reports faults { d with endTagName := none } := reports_of_eq rfl
    dsimp only
    split
    · exact hnext.trans (reports_report hextra _ _)
    · exact ((hnext.trans (reports_closeDownTo htag hmustache _ _ _ _)).congr
        (diagnostics_setEndTagStart _ _ _)).congr (diagnostics_close _ _)

end Closing

/-- **The end of the text** reports what is not closed. -/
theorem reports_finish (d : Draft) : d.Reports [.tagUnclosed, .mustacheEndExpected] d.finish :=
  reports_finishIn (by simp) (by simp) _ _ d

/-- **What a token reports.** -/
theorem reports_build (d : Draft) (t : Token) : d.Reports t.kind.reports (d.build t) := by
  cases hkind : t.kind <;> simp only [build, hkind, TokenKind.reports]
  case commentContent => split <;> exact reports_of_eq rfl
  case commentEnd =>
    split
    · exact reports_of_eq (diagnostics_close _ _)
    · exact reports_of_eq rfl
  case text =>
    split
    · exact reports_of_eq (d.diagnostics_templateText t)
    · exact reports_of_eq (d.diagnostics_proseText t)
  case paragraphEnd =>
    unfold paragraphEnd
    split
    · exact reports_of_eq (diagnostics_close _ _)
    · exact reports_of_eq rfl
  case codeBlockAttribute => exact reports_codeBlockAttribute (by simp) d t
  case codeBlockContent =>
    unfold codeBlockContent
    dsimp only
    split <;> exact reports_of_eq rfl
  case codeBlockEnd =>
    unfold codeBlockEnd
    split
    · refine Reports.congr ?_ (diagnostics_close _ _)
      split <;> exact reports_of_eq rfl
    · exact reports_of_eq rfl
  case startTagOpen | endTagOpen => exact reports_of_eq d.diagnostics_leaveAttribute
  case startTag =>
    unfold startTag
    dsimp only
    split <;> exact reports_of_eq rfl
  case startTagClose => exact reports_of_eq (d.diagnostics_startTagClose t)
  case startTagSelfClose => exact reports_of_eq (d.diagnostics_startTagSelfClose t)
  case endTagClose => exact reports_endTagClose (by simp) (by simp) (by simp) d _
  case attributeName | directiveName => exact reports_attributeName (by simp) (by simp)
  case attributeValue => exact reports_of_eq (d.diagnostics_attributeValue _)
  case mustacheContent =>
    unfold mustacheContent
    dsimp only
    split <;> exact reports_of_eq rfl
  case mustacheEnd => exact reports_of_eq (d.diagnostics_mustacheEnd t)
  -- what is attached or opened, and what only widens a node
  all_goals exact reports_of_eq rfl

end Draft

end HybridMarkup
