/-
The dialect of a tree is a label.

A tree carries the dialect of its document, so that whoever works on it knows by which rules the text
was read and what is to be generated. Between the two dialects of prose that is all it does: no rule of
prose asks which of them it is. So a tree of the one and the tree of the other have the same nodes if
they are made of the same tokens. This is said by equations: whatever is done to a draft under another
label is what is done to the draft, under that label.

With the scanners in step (`Scanner.after_inDialect`) this takes a plain text through the whole
program. The diagnostics are the same, since rules look at nodes only, and so is all that is generated
but the index, which is made for Mdx alone.

Main statement: `Parse.mdx_conservative`.
-/
import HybridMarkup.Artifact.All
import HybridMarkup.Proofs.PlainProse
import HybridMarkup.Proofs.SideBySide

set_option autoImplicit false

namespace HybridMarkup

open Text

/-! ## Trees -/

namespace Tree

variable {t : Tree} {dialect : Dialect}

/-- The same nodes under another label. -/
def inDialect (t : Tree) (dialect : Dialect) : Tree := { t with dialect }

@[simp] theorem node_inDialect (t : Tree) (id : NodeId) : (t.inDialect dialect).node id = t.node id :=
  rfl

@[simp] theorem modify_inDialect (t : Tree) (id : NodeId) (f : Node → Node) :
    (t.inDialect dialect).modify id f = (t.modify id f).inDialect dialect := rfl

@[simp] theorem renumber_inDialect (t : Tree) (slot : Nat) (ids : List NodeId) :
    (t.inDialect dialect).renumber slot ids = (t.renumber slot ids).inDialect dialect := by
  induction ids generalizing t slot with
  | nil => rfl
  | cons id ids ih => exact ih (t.modify id fun n => { n with slot }) (slot + 1)

theorem detach_inDialect (t : Tree) (child : NodeId) :
    (t.inDialect dialect).detach child = (t.detach child).inDialect dialect := by
  unfold detach
  rw [node_inDialect]
  split
  · rfl
  · simp only [node_inDialect, modify_inDialect, renumber_inDialect]

theorem attach_inDialect (t : Tree) (child parent : NodeId) :
    (t.inDialect dialect).attach child parent = (t.attach child parent).inDialect dialect := by
  unfold attach
  rw [detach_inDialect]
  rfl

theorem visit_inDialect (t : Tree) (fuel : Nat) (stack : List NodeId) :
    (t.inDialect dialect).visit fuel stack = t.visit fuel stack := by
  induction fuel generalizing stack with
  | zero => rfl
  | succ fuel ih =>
    cases stack with
    | nil => rfl
    | cons id stack => exact congrArg (id :: ·) (ih (t.children id ++ stack))

end Tree

/-! ## Drafts -/

namespace Draft

variable {d : Draft} {dialect : Dialect} {t : Token}

/-- The same draft under another label. -/
def inDialect (d : Draft) (dialect : Dialect) : Draft := { d with tree := d.tree.inDialect dialect }

@[simp] theorem currentData_inDialect (d : Draft) :
    (d.inDialect dialect).currentData = d.currentData := rfl

@[simp] theorem currentKind_inDialect (d : Draft) :
    (d.inDialect dialect).currentKind = d.currentKind := rfl

@[simp] theorem setCurrent_inDialect (d : Draft) (data : NodeData) :
    (d.inDialect dialect).setCurrent data = (d.setCurrent data).inDialect dialect := rfl

@[simp] theorem report_inDialect (d : Draft) (error : ParseError) (span : Span) :
    (d.inDialect dialect).report error span = (d.report error span).inDialect dialect := rfl

theorem addChild_inDialect (d : Draft) (data : NodeData) (span : Span) :
    (d.inDialect dialect).addChild data span
      = ((d.addChild data span).1, (d.addChild data span).2.inDialect dialect) := by
  have hattach :
      ((d.tree.alloc data span).2.inDialect dialect).attach d.tree.size d.current
        = ((d.tree.alloc data span).2.attach d.tree.size d.current).inDialect dialect :=
    Tree.attach_inDialect ..
  unfold addChild
  exact congrArg (fun tree => (d.tree.size, { d with tree : Draft }.extend span.stop)) hattach

@[simp] theorem leaf_inDialect (d : Draft) (data : NodeData) (span : Span) :
    (d.inDialect dialect).leaf data span = (d.leaf data span).inDialect dialect := by
  rw [leaf, addChild_inDialect]
  rfl

@[simp] theorem openNode_inDialect (d : Draft) (data : NodeData) (span : Span) :
    (d.inDialect dialect).openNode data span = (d.openNode data span).inDialect dialect := by
  rw [openNode, addChild_inDialect]
  rfl

theorem ascend_inDialect (d : Draft) :
    (d.inDialect dialect).ascend = d.ascend.inDialect dialect := by
  have hparent : (d.inDialect dialect).tree.parent (d.inDialect dialect).current
      = d.tree.parent d.current := rfl
  unfold ascend
  rw [hparent]
  split <;> rfl

@[simp] theorem close_inDialect (d : Draft) (stop : Nat) :
    (d.inDialect dialect).close stop = (d.close stop).inDialect dialect := by
  have hspan : (d.inDialect dialect).tree.span (d.inDialect dialect).current
      = d.tree.span d.current := rfl
  unfold close
  rw [hspan]
  exact ascend_inDialect
    { d with
      tree := d.tree.setSpan d.current
        ⟨(d.tree.span d.current).start, max stop (d.tree.span d.current).start⟩ }

@[simp] theorem supplyEndTagStart_inDialect (d : Draft) (stop : Nat) :
    (d.inDialect dialect).supplyEndTagStart stop
      = (d.supplyEndTagStart stop).inDialect dialect := by
  unfold supplyEndTagStart
  rw [currentData_inDialect]
  split <;> rfl

@[simp] theorem closeUnterminated_inDialect (d : Draft) (stop : Nat) :
    (d.inDialect dialect).closeUnterminated stop
      = (d.closeUnterminated stop).inDialect dialect := by
  have hspan : (d.inDialect dialect).tree.span (d.inDialect dialect).current
      = d.tree.span d.current := rfl
  unfold closeUnterminated
  rw [currentData_inDialect, hspan]
  dsimp only
  split
  · rw [setCurrent_inDialect, report_inDialect, close_inDialect]
  · rw [report_inDialect, close_inDialect]
  · split
    · rw [report_inDialect, close_inDialect]
    · rw [close_inDialect]

theorem finish_inDialect (d : Draft) : (d.inDialect dialect).finish = d.finish.inDialect dialect := by
  have hfinish (fuel stop : Nat) (d : Draft) :
      finishIn fuel stop (d.inDialect dialect) = (finishIn fuel stop d).inDialect dialect := by
    induction fuel generalizing d with
    | zero => rfl
    | succ fuel ih =>
      have hcurrent : (d.inDialect dialect).current = d.current := rfl
      rw [finishIn, finishIn, hcurrent]
      split
      · rfl
      · rw [supplyEndTagStart_inDialect, closeUnterminated_inDialect, ih]
  exact hfinish ..

/-! ## Rules of prose -/

theorem proseText_inDialect (d : Draft) (t : Token) :
    (d.inDialect dialect).proseText t = (d.proseText t).inDialect dialect := by
  unfold proseText
  rw [currentKind_inDialect]
  split
  · exact leaf_inDialect ..
  · dsimp only
    rw [openNode_inDialect, leaf_inDialect]

theorem codeBlockAttribute_inDialect (d : Draft) (t : Token) :
    (d.inDialect dialect).codeBlockAttribute t = (d.codeBlockAttribute t).inDialect dialect := by
  unfold codeBlockAttribute
  rw [currentData_inDialect]
  split
  · next block _ =>
    dsimp only
    split
    · rfl
    · split <;> rfl
  · rfl

theorem codeBlockContent_inDialect (d : Draft) (t : Token) :
    (d.inDialect dialect).codeBlockContent t = (d.codeBlockContent t).inDialect dialect := by
  unfold codeBlockContent
  rw [currentData_inDialect]
  split <;> rfl

theorem codeBlockEnd_inDialect (d : Draft) (t : Token) :
    (d.inDialect dialect).codeBlockEnd t = (d.codeBlockEnd t).inDialect dialect := by
  unfold codeBlockEnd
  rw [currentData_inDialect]
  split
  · dsimp only
    split
    · rw [setCurrent_inDialect, close_inDialect]
    · rw [close_inDialect]
  · rfl

theorem blockExpression_inDialect (d : Draft) (t : Token) :
    (d.inDialect dialect).blockExpression t = (d.blockExpression t).inDialect dialect := by
  unfold blockExpression
  dsimp only
  rw [currentKind_inDialect, leaf_inDialect]

/-- **A token of prose** does the same under either label of prose. -/
theorem takeToken_inDialect (prose : d.tree.dialect ≠ .template) (prose' : dialect ≠ .template)
    (hkind : t.kind.isProse = true) :
    (d.inDialect dialect).takeToken t = (d.takeToken t).inDialect dialect := by
  have hbuild : (d.inDialect dialect).build t = (d.build t).inDialect dialect := by
    unfold build
    cases hk : t.kind with
    | whitespace | unknown | eos => rfl
    | text =>
      have hlabel : (d.inDialect dialect).tree.dialect = dialect := rfl
      dsimp only
      rw [hlabel, if_neg prose, if_neg prose']
      exact proseText_inDialect d t
    | paragraphEnd | commentEnd =>
      simp only [paragraphEnd, currentKind_inDialect, close_inDialect]
      split <;> rfl
    | commentStart | codeBlockStart => exact openNode_inDialect ..
    | commentContent =>
      dsimp only
      rw [currentData_inDialect]
      split <;> rfl
    | codeBlockAttribute => exact codeBlockAttribute_inDialect d t
    | codeBlockContent => exact codeBlockContent_inDialect d t
    | codeBlockEnd => exact codeBlockEnd_inDialect d t
    | importStatement | jsxExpression => exact leaf_inDialect ..
    | blockExpression => exact blockExpression_inDialect d t
    | _ => simp [hk, TokenKind.isProse] at hkind
  unfold takeToken
  rw [hbuild]
  split <;> rfl

end Draft

/-! ## Whole documents -/

namespace Stage

/-- The same stage in a document of another dialect. -/
def inDialect (st : Stage) (dialect : Dialect) : Stage :=
  ⟨st.scanner.inDialect dialect, st.draft.inDialect dialect⟩

variable {st : Stage} {text : Text}

/-- **The next token** is the same, and it does the same. -/
theorem Of.next_inDialect (h : st.Of .markdown text) (plain : st.scanner.rest.Plain) :
    (st.inDialect .mdx).next = st.next.inDialect .mdx := by
  have hprose : st.draft.tree.dialect ≠ .template := by
    rw [h.text_eq.2]
    decide
  unfold Stage.next inDialect
  dsimp only
  rw [Scanner.scan_inDialect h.dialect_eq plain,
    Draft.takeToken_inDialect hprose (by decide) h.token_isProse]

/-- All tokens. -/
theorem Of.after_inDialect (h : st.Of .markdown text) (plain : st.scanner.rest.Plain) (n : Nat) :
    (st.inDialect .mdx).after n = (st.after n).inDialect .mdx := by
  induction n generalizing st with
  | zero => rfl
  | succ n ih =>
    rw [Stage.after, Stage.after, h.next_inDialect plain]
    exact ih h.next (plain.suffix (rest_suffix 1 st))

end Stage

namespace Rule

/-- The rules look at nodes only. -/
theorem findings_inDialect (rule : Rule) (hrule : rule ∈ all) (severity : Severity) (t : Tree)
    (dialect : Dialect) (id : NodeId) :
    rule.findings severity (t.inDialect dialect) id = rule.findings severity t id := by
  simp only [all, List.mem_cons, List.not_mem_nil, or_false] at hrule
  obtain rfl | rfl | rfl := hrule
  · rfl
  · rfl
  · rfl

end Rule

theorem LintConfig.lint_inDialect (c : LintConfig) (t : Tree) (dialect : Dialect) :
    c.lint (t.inDialect dialect) = c.lint t := by
  have hpreorder : (t.inDialect dialect).preorder = t.preorder := Tree.visit_inDialect ..
  unfold lint
  rw [hpreorder]
  refine List.flatMap_congr fun id _ => List.flatMap_congr fun entry hentry => ?_
  obtain ⟨rule, hrule, rfl⟩ := List.mem_map.1 (List.mem_filter.1 hentry).1
  exact Rule.findings_inDialect rule hrule _ t dialect id

namespace ProseArtifacts

/-- What is made for Mdx alone: a file that announces the script. -/
def indexArtifact (fileName : Text) : Artifact where
  kind := .index
  fileName := fileName ++ indexSuffix
  text := indexText (fileName ++ proseScriptSuffix)
  mappings := []

theorem emit_inDialect (t : Tree) (dialect : Dialect) (fileName : Text) (fuel : Nat) :
    emit (t.inDialect dialect) fileName fuel = emit t fileName fuel := by
  induction fuel with
  | zero => rfl
  | succ fuel ih =>
    funext out id
    unfold emit
    rw [ih]
    rfl

/-- **The artifacts of Mdx** are those of Markdown, and the index. -/
theorem ofTree_mdx {t : Tree} (markdown : t.dialect = .markdown) (fileName : Text) :
    ofTree (t.inDialect .mdx) fileName = ofTree t fileName ++ [indexArtifact fileName] := by
  have houtput : output (t.inDialect .mdx) fileName = output t fileName := by
    unfold output
    exact congrArg (fun emitted : Output → NodeId → Output =>
      let out := (t.children Tree.root).foldl emitted
        { script := CodeGen.addText {} scriptOpening }
      { out with script := out.script.addText emptyExport }) (emit_inDialect t .mdx fileName t.size)
  have hlabel : (t.inDialect .mdx).dialect = .mdx := rfl
  unfold ofTree
  dsimp only
  rw [houtput, hlabel, markdown, if_pos rfl, if_neg (by decide), List.append_nil]
  rfl

end ProseArtifacts

namespace Parse

/-- The same parse under another label. -/
def inDialect (p : Parse) (dialect : Dialect) : Parse := { p with tree := p.tree.inDialect dialect }

variable {text : Text}

theorem draft_inDialect (plain : text.Plain) :
    draft .mdx text = (draft .markdown text).inDialect .mdx := by
  have hof : (Stage.start .markdown text).Of .markdown text := Stage.of_start (by decide) text
  obtain ⟨n, hend⟩ : ∃ n, ((Stage.start .markdown text).after n).scanner.rest = [] :=
    Stage.exists_end (by decide) text
  have hafter : (Stage.start .mdx text).after n
      = ((Stage.start .markdown text).after n).inDialect .mdx := hof.after_inDialect plain n
  have hend' : ((Stage.start .mdx text).after n).scanner.rest = [] := by
    rw [hafter]
    exact hend
  rw [Stage.draft_eq (by decide) hend, Stage.draft_eq (by decide) hend', hafter]
  exact Draft.finish_inDialect _

/-- **Mdx is Markdown where there is no host code.** The scanner yields the same tokens and is in the
same state after each of them; the parse is the same but for the name of the dialect; and what is
generated is what Markdown generates, with the index behind it. -/
theorem mdx_conservative (options : ParseOptions) (text fileName : Text) (plain : text.Plain) :
    let markdown := ofText { options with dialect := .markdown } text
    let mdx := ofText { options with dialect := .mdx } text
    (∀ n, (Scanner.start .mdx text).after n
          = ((Scanner.start .markdown text).after n).inDialect .mdx ∧
        ((Scanner.start .mdx text).after n).scan.1
          = ((Scanner.start .markdown text).after n).scan.1) ∧
      tokenize .mdx text = tokenize .markdown text ∧
      mdx = markdown.inDialect .mdx ∧
      mdx.tree.artifacts fileName
        = markdown.tree.artifacts fileName ++ [ProseArtifacts.indexArtifact fileName] := by
  intro markdown mdx
  have hafter (n : Nat) : (Scanner.start .mdx text).after n
      = ((Scanner.start .markdown text).after n).inDialect .mdx :=
    Scanner.after_inDialect (s := Scanner.start .markdown text) rfl plain n
  have hparse : mdx = markdown.inDialect .mdx := by
    show ofText _ text = _
    unfold ofText
    dsimp only
    rw [draft_inDialect plain]
    exact congrArg (fun findings => Parse.mk ((draft .markdown text).tree.inDialect .mdx)
      ((draft .markdown text).diagnostics.entries ++ findings) options.location)
      (options.lint.lint_inDialect (draft .markdown text).tree .mdx)
  refine ⟨fun n => ⟨hafter n, ?_⟩,
    Scanner.tokensIn_inDialect (s := Scanner.start .markdown text) rfl plain (tokenLimit text),
    hparse, ?_⟩
  · have hdialect : ((Scanner.start .markdown text).after n).dialect = .markdown :=
      Scanner.after_keeps (P := fun s => s.dialect = .markdown)
        (fun s hs => s.scan_dialect.trans hs) rfl n
    have hrest : ((Scanner.start .markdown text).after n).rest <:+ text :=
      Scanner.after_keeps (P := fun s => s.rest <:+ text)
        (fun s hs => List.IsSuffix.trans ⟨s.scan.1.lexeme, s.scan_reads.symm⟩ hs)
        (List.suffix_refl text) n
    rw [hafter n, Scanner.scan_inDialect hdialect (plain.suffix hrest)]
  · have hlabel : markdown.tree.dialect = .markdown := by
      have prose : Dialect.markdown ≠ .template := by decide
      obtain ⟨_, _, hstands⟩ := ProseArtifacts.pieces_of_tree prose text
      exact hstands.dialect_eq
    have hlabel' : mdx.tree = markdown.tree.inDialect .mdx := congrArg Parse.tree hparse
    rw [hlabel']
    unfold Tree.artifacts
    rw [hlabel]
    exact ProseArtifacts.ofTree_mdx hlabel fileName

/-- An angle bracket in front of a space opens nothing, and a script in a fence is no host code. -/
theorem mdx_conservative_fence :
    let text : Text := "a < b\n```js\n1\n```\n".toList
    text.Plain ∧ tokenize .mdx text = tokenize .markdown text ∧
      ofText { dialect := .mdx } text = (ofText { dialect := .markdown } text).inDialect .mdx := by
  intro text
  have plain : text.Plain := ⟨by decide, by decide, by decide⟩
  obtain ⟨_, htokens, hparse, _⟩ := mdx_conservative {} text [] plain
  exact ⟨plain, htokens, hparse⟩

end Parse

end HybridMarkup
