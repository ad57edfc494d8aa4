/-
Artifacts are true to the document.

What an artifact copies is a text or a pair of a text and a span that the parser has stored in a
node. That the two belong together is what the soundness of a tree says (`Draft.Stands`), so it is
enough to know of a tree that all its nodes are sound: then nothing that the artifacts are made of
can disagree with the document, whatever the shape of the tree and in whatever order it is gone
through.
-/
import HybridMarkup.Artifact.All
import HybridMarkup.Proofs.TemplateRun

set_option autoImplicit false

namespace HybridMarkup

open Text

/-- All nodes of a tree are sound, but for those that stand for nothing. -/
structure Tree.Sound (t : Tree) (text : Text) : Prop where
  text_eq : t.text = text
  node : ∀ i, t.data i ≠ .root → (t.span i).Cuts text ∧ (t.data i).Sound text (t.span i)

theorem Draft.Stands.tree_sound {α : Type} {g : Gather α} {dialect : Dialect} {text : Text}
    {pos : Nat} {path : List NodeKind} {xs : List α} {d : Draft}
    (h : d.Stands g dialect text pos path xs) : d.tree.Sound text := by
  refine ⟨h.text_eq, fun i hdata => ?_⟩
  have hi := Tree.lt_size_of_data hdata
  exact ⟨(h.cuts i hi).1, h.sound i hi⟩

/-- A text without an equals sign, or what stands in front of the first one, begins the text. -/
theorem Text.cutAt?_append {c : Char} {t a b : Text} (h : cutAt? c t = some (a, b)) :
    t = a ++ c :: b := by
  induction t generalizing a with
  | nil => simp [cutAt?] at h
  | cons d t ih =>
    unfold cutAt? at h
    split at h
    · next heq =>
      simp only [Option.some.injEq, Prod.mk.injEq] at h
      obtain ⟨rfl, rfl⟩ := h
      rw [heq]
      rfl
    · obtain ⟨⟨a', b'⟩, hcut, hpair⟩ := Option.map_eq_some_iff.1 h
      simp only [Prod.mk.injEq] at hpair
      obtain ⟨rfl, rfl⟩ := hpair
      rw [ih hcut]
      rfl

namespace CodeGen

/-- What has been added since some point. -/
theorem since_cuts {g g' : CodeGen} {added : Text} (h : g'.text = g.text ++ added) :
    (⟨g.size, g'.size⟩ : Span).Cuts g'.text ∧ slice g'.text ⟨g.size, g'.size⟩ = added := by
  have htext : g'.text = g.text ++ (added ++ []) := by rw [h, List.append_nil]
  have hstop : g'.size = Text.size g.text + Text.size added := by rw [size, h, size_append]
  rw [htext]
  exact ⟨Span.cuts_iff.2 ⟨g.text, added, [], rfl, rfl, hstop⟩, Span.slice_eq rfl hstop⟩

end CodeGen

/-! ## Prose -/

namespace ProseArtifacts

variable {t : Tree} {text : Text} {out : Output} {fileName : Text}

/-- All texts in the making are true to the document. -/
structure Output.Faithful (text : Text) (out : Output) : Prop where
  script : out.script.Faithful text
  prose : out.prose.Faithful text
  blocks : ∀ block ∈ out.blocks, block.2.Faithful text

theorem statement_faithful (h : out.Faithful text) {span : Span} (hcuts : span.Cuts text) :
    (statement out (slice text span) span).Faithful text :=
  ⟨(h.script.addCode hcuts rfl).addText statementEnd, h.prose, h.blocks⟩

/-- **An expression** is generated between braces, as the whole it comes from. -/
theorem expression_faithful (h : out.Faithful text) {inner whole : Span}
    (hbraces : Braces text whole inner) :
    (expression out (slice text inner) inner whole).Faithful text := by
  have hcopy := ((h.script.addText ['{']).addCode hbraces.cutsInner rfl).addText ['}']
  have htext : (((out.script.addText ['{']).addCode (slice text inner) .offset inner).addText
      ['}']).text = out.script.text ++ ('{' :: slice text inner ++ ['}']) := by
    simp [CodeGen.addText, CodeGen.addCode, CodeGen.addMapping]
  obtain ⟨hcuts, hreads⟩ := CodeGen.since_cuts htext
  -- a brace takes one byte on either side, so the copy lies where the whole says it does
  have hsize : (((out.script.addText ['{']).addCode (slice text inner) .offset inner).addText
      ['}']).size = out.script.size + 1 + size (slice text inner) + 1 := by
    rw [CodeGen.size, htext, size_append, List.cons_append, size, size_append,
      show Char.utf8Size '{' = 1 from rfl, show size ['}'] = 1 from rfl, CodeGen.size]
    omega
  have hbrace : (out.script.addText ['{']).size = out.script.size + 1 := by
    rw [CodeGen.size, CodeGen.addText, size_append]
    rfl
  refine ⟨CodeGen.Faithful.addText ?_ statementEnd, h.prose, h.blocks⟩
  refine hcopy.addMapping (by simp) hbraces.cutsWhole hcuts fun _ => ?_
  refine ⟨_, List.mem_append_right _ (List.mem_singleton_self _), rfl, hbraces, ?_, hreads⟩
  show Span.ofLength (out.script.addText ['{']).size (size (slice text inner)) = ⟨_, _ - 1⟩
  rw [Span.ofLength, hbrace, hsize, Nat.add_sub_cancel]

theorem hostBlock_faithful (h : out.Faithful text) {block : CodeBlock} {start : Nat}
    {language : HostLanguage} (hcuts : block.contentSpan.Cuts text)
    (htext : block.text = slice text block.contentSpan)
    (hopener : (⟨start, block.openerEnd⟩ : Span).Cuts text) :
    (hostBlock fileName out block start language).Faithful text := by
  have hempty : ({} : CodeGen).Faithful text := copied_nil text []
  refine ⟨?_, h.prose, ?_⟩
  · refine (h.script.addText _).addMapping (by simp) hopener ?_ (by simp)
    exact (CodeGen.nextSpan_cuts _ _).1
  · intro b hb
    rcases List.mem_append.1 hb with hb | hb
    · exact h.blocks b hb
    · rw [List.mem_singleton.1 hb]
      exact (hempty.addCode hcuts htext).addText _

theorem foreignBlock_faithful (h : out.Faithful text) {block : CodeBlock}
    (hcuts : block.contentSpan.Cuts text) (htext : block.text = slice text block.contentSpan) :
    (foreignBlock out block).Faithful text :=
  ⟨h.script, ((h.prose.addText _).addCode hcuts htext).addText _, h.blocks⟩

/-- Whatever is dealt out is true to the document. -/
theorem emit_faithful (ht : t.Sound text) (fuel : Nat) :
    ∀ {out : Output} (id : Nat), out.Faithful text →
      (emit t fileName fuel out id).Faithful text := by
  induction fuel with
  | zero => exact fun _ h => h
  | succ fuel ih =>
    intro out id h
    have hnode := ht.node id
    unfold emit
    split
    · have hchildren := List.foldlRecOn (motive := Output.Faithful text) (t.children id)
        (emit t fileName fuel) h fun out h child _ => ih child h
      exact ⟨hchildren.script, hchildren.prose.addText _, hchildren.blocks⟩
    · next hdata =>
      obtain ⟨hcuts, _⟩ := hnode (by rw [hdata]; simp)
      exact ⟨h.script, h.prose.addCode hcuts (by rw [Tree.nodeText, ht.text_eq]), h.blocks⟩
    · next hdata =>
      obtain ⟨hcuts, _⟩ := hnode (by rw [hdata]; simp)
      rw [Tree.nodeText, ht.text_eq]
      exact statement_faithful h hcuts
    · next hdata =>
      obtain ⟨hcuts, _⟩ := hnode (by rw [hdata]; simp)
      rw [Tree.nodeText, ht.text_eq]
      exact statement_faithful h hcuts
    · next hdata =>
      obtain ⟨_, hsound⟩ := hnode (by rw [hdata]; simp)
      rw [hdata] at hsound
      rw [hsound.1]
      exact expression_faithful h hsound.2
    · next block hdata =>
      obtain ⟨_, hsound⟩ := hnode (by rw [hdata]; simp)
      rw [hdata] at hsound
      obtain ⟨hcuts, htext, hopener⟩ := hsound
      split
      · exact hostBlock_faithful h hcuts htext hopener
      · exact foreignBlock_faithful h hcuts htext
    · exact h

theorem output_faithful (ht : t.Sound text) (fileName : Text) :
    (output t fileName).Faithful text := by
  have hempty : ({} : CodeGen).Faithful text := copied_nil text []
  have hstart : ({ script := CodeGen.addText {} scriptOpening } : Output).Faithful text :=
    ⟨hempty.addText _, hempty, fun _ hb => absurd hb List.not_mem_nil⟩
  have hdealt := List.foldlRecOn (motive := Output.Faithful text) (t.children Tree.root)
    (emit t fileName t.size) hstart fun _ h child _ => emit_faithful ht t.size child h
  exact ⟨hdealt.script.addText _, hdealt.prose, hdealt.blocks⟩

theorem blockArtifacts_copied {blocks : List (Text × CodeGen)}
    (h : ∀ block ∈ blocks, block.2.Faithful text) (index : Nat) :
    ∀ a ∈ blockArtifacts index blocks, Copied text a.text a.mappings := by
  induction blocks generalizing index with
  | nil => exact fun a ha => absurd ha List.not_mem_nil
  | cons block blocks ih =>
    intro a ha
    rcases List.mem_cons.1 ha with rfl | ha
    · exact h block List.mem_cons_self
    · exact ih (fun b hb => h b (List.mem_cons_of_mem _ hb)) (index + 1) a ha

theorem ofTree_copied (ht : t.Sound text) (fileName : Text) :
    ∀ a ∈ ofTree t fileName, Copied text a.text a.mappings := by
  have hout := output_faithful ht fileName
  intro a ha
  rcases List.mem_append.1 ha with ha | ha
  · rcases List.mem_append.1 ha with ha | ha
    · exact blockArtifacts_copied hout.blocks 0 a ha
    · rcases List.mem_cons.1 ha with rfl | ha
      · exact hout.script
      · rw [List.mem_singleton.1 ha]
        exact hout.prose
  · split at ha
    · rw [List.mem_singleton.1 ha]
      exact copied_nil text _
    · exact absurd ha List.not_mem_nil

end ProseArtifacts

/-! ## Templates -/

namespace TemplateArtifact

variable {t : Tree} {text : Text} {script : CodeGen}

theorem embed_faithful (h : script.Faithful text) {code : Text} {source : Span}
    (hcuts : source.Cuts text) (hcode : code = slice text source) :
    (embed script code source).Faithful text :=
  ((h.addText opening).addCode hcuts hcode).addText closing

theorem embed_text (script : CodeGen) (code : Text) (source : Span) :
    (embed script code source).text = script.text ++ (opening ++ code ++ closing) := by
  simp [embed, CodeGen.addText, CodeGen.addCode, CodeGen.addMapping]

/-- The name of a directive is the beginning of its node. -/
theorem nameSpan_cuts (ht : t.Sound text) {id : Nat} (hcuts : (t.span id).Cuts text) :
    (nameSpan t id).Cuts text := by
  -- the name may be all there is: a directive need not have an equals sign
  have hname : ∃ more, t.nodeText id
      = ((Text.cutAt? '=' (t.nodeText id)).map Prod.fst).getD (t.nodeText id) ++ more := by
    cases hcut : Text.cutAt? '=' (t.nodeText id) with
    | none => exact ⟨[], (List.append_nil _).symm⟩
    | some parts => exact ⟨'=' :: parts.2, Text.cutAt?_append hcut⟩
  obtain ⟨more, hmore⟩ := hname
  rw [Tree.nodeText, ht.text_eq] at hmore
  have hpart := (hcuts.part (u := []) hmore).1
  unfold nameSpan Tree.nodeText
  rw [ht.text_eq]
  exact hpart

theorem embedDirective_faithful (ht : t.Sound text) (h : script.Faithful text) {id : Nat}
    {d : Directive} (hcuts : (t.span id).Cuts text) (hsound : ValueSound text d.value d.valueSpan) :
    (embedDirective t script id d).Faithful text := by
  unfold embedDirective
  split
  · next value valueSpan hvalue hspan =>
    obtain ⟨hvalueCuts, hcode⟩ := hsound valueSpan hspan
    rw [hvalue, Option.some.injEq] at hcode
    refine (embed_faithful h hvalueCuts hcode).addMapping (by simp)
      (nameSpan_cuts ht hcuts) ?_ (by simp)
    exact (CodeGen.since_cuts (embed_text script value valueSpan)).1
  · exact h

theorem emit_faithful (ht : t.Sound text) (fuel : Nat) :
    ∀ {script : CodeGen} (id : Nat), script.Faithful text →
      (emit t fuel script id).Faithful text := by
  induction fuel with
  | zero => exact fun _ h => h
  | succ fuel ih =>
    intro script id h
    have hnode := ht.node id
    have hchildren := List.foldlRecOn (motive := CodeGen.Faithful text) (t.children id)
      (emit t fuel) h fun out h child _ => ih child h
    unfold emit
    split
    · split
      · exact h
      · exact hchildren
    · exact hchildren
    · next hdata =>
      obtain ⟨_, hsound⟩ := hnode (by rw [hdata]; simp)
      rw [hdata] at hsound
      exact embed_faithful h hsound.1 hsound.2
    · next hdata =>
      obtain ⟨hcuts, hsound⟩ := hnode (by rw [hdata]; simp)
      rw [hdata] at hsound
      exact embedDirective_faithful ht h hcuts hsound
    · exact h

theorem scriptElement_faithful (ht : t.Sound text) {out : Output} (id : Nat)
    (h : out.script.Faithful text) : (scriptElement t out id).script.Faithful text := by
  unfold scriptElement
  split
  · split
    · refine List.foldlRecOn (motive := fun out : Output => out.script.Faithful text)
        (t.children id) (scriptChild t) h fun out h child _ => ?_
      unfold scriptChild
      split
      · split
        · exact h
        · exact h
      · next hdata =>
        obtain ⟨hcuts, hsound⟩ := ht.node child (by rw [hdata]; simp)
        rw [hdata] at hsound
        exact (CodeGen.Faithful.addCode h hcuts hsound).addText _
      · exact h
    · exact h
  · exact h

theorem ofTree_copied (ht : t.Sound text) (fileName : Text) :
    Copied text (ofTree t fileName).text (ofTree t fileName).mappings := by
  have hempty : ({} : Output).script.Faithful text := copied_nil text []
  have hscripts := List.foldlRecOn (motive := fun out : Output => out.script.Faithful text)
    t.preorder (scriptElement t) hempty fun _ h id _ => scriptElement_faithful ht id h
  exact List.foldlRecOn (motive := CodeGen.Faithful text) (t.children Tree.root) (emit t t.size)
    hscripts fun _ h child _ => emit_faithful ht t.size child h

end TemplateArtifact

/-! ## All artifacts -/

theorem Parse.tree_sound (dialect : Dialect) (text : Text) :
    (Parse.draft dialect text).tree.Sound text ∧
      (Parse.draft dialect text).tree.dialect = dialect := by
  by_cases hdialect : dialect = .template
  · subst hdialect
    obtain ⟨_, _, hstands⟩ := TemplateArtifact.pieces_of_tree text
    exact ⟨hstands.tree_sound, hstands.dialect_eq⟩
  · obtain ⟨_, _, hstands⟩ := ProseArtifacts.pieces_of_tree hdialect text
    exact ⟨hstands.tree_sound, hstands.dialect_eq⟩

/-- **Every artifact is true to the document it was made of.** Whatever the document, its dialect
and its name, the source and the place of every mapping are cut out of the document and of the
artifact between characters; what is mapped by distance is the same text on both sides, and so of
the same length; the copies in an artifact lie one behind the other in the order of the mappings;
and what is mapped as a whole is generated as an opening brace, the copy of the inside of its
expression, and a closing brace. -/
theorem artifacts_copied (options : ParseOptions) (text fileName : Text) :
    ∀ a ∈ (Parse.ofText options text).tree.artifacts fileName,
      Copied text a.text a.mappings ∧
        ∀ m ∈ a.mappings, m.mode = .offset → m.mapped.length = m.source.length := by
  intro a ha
  have hcopied : Copied text a.text a.mappings := by
    obtain ⟨hsound, hdialect⟩ := Parse.tree_sound options.dialect text
    change a ∈ (Parse.draft options.dialect text).tree.artifacts fileName at ha
    unfold Tree.artifacts at ha
    split at ha
    · rw [List.mem_singleton.1 ha]
      exact TemplateArtifact.ofTree_copied hsound fileName
    · exact ProseArtifacts.ofTree_copied hsound fileName a ha
    · exact ProseArtifacts.ofTree_copied hsound fileName a ha
  refine ⟨hcopied, fun m hm hmode => ?_⟩
  have hcuts := hcopied.cuts m hm
  rw [← hcuts.1.size_slice, ← hcuts.2.size_slice, hcopied.same m hm hmode]

/-- The script of an expression has a copy and a whole in braces. -/
theorem artifacts_copied_expression :
    ∃ a, (a ∈ (Parse.ofText {} "\x7bx\x7d".toList).tree.artifacts "a".toList) ∧
      a.mappings.map Mapping.mode = [.offset, .totally] ∧
      Copied "\x7bx\x7d".toList a.text a.mappings := by
  have hhead : (((Parse.ofText {} "\x7bx\x7d".toList).tree.artifacts "a".toList).head?).map
      (fun a => a.mappings.map Mapping.mode) = some [.offset, .totally] := by
    decide +kernel
  obtain ⟨a, ha, hmodes⟩ := Option.map_eq_some_iff.1 hhead
  have hmem := List.mem_of_head? ha
  exact ⟨a, hmem, hmodes, (artifacts_copied {} "\x7bx\x7d".toList "a".toList a hmem).1⟩

end HybridMarkup
