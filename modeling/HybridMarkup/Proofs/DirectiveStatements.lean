/-
The statements made of directives, and what is tied to them.

The second round of a template's script comes to the nodes in their order (`emit_eq_walk`), and makes
a statement of every mustache and of every directive with a value on its way. Each directive leaves
one mapping of the mode `expand` behind, from its name to the whole of its statement, and nothing
else leaves any; so these mappings are the directives on the way, one for each and in their order
(`TemplateArtifact.expansions_emit`).

Where the name ends in the source is another matter. The search for it stops at the equals sign and
not where the name ends, so the space between the two is tied to the statement as well
(`TemplateArtifact.names_expand_with_space`). Main statement: `TemplateArtifact.directives_expand`,
for all templates that are read to their end.
-/
import HybridMarkup.Proofs.Delimiters

set_option autoImplicit false

namespace HybridMarkup

open Text

namespace TemplateArtifact

variable {t : Tree} {g g' : CodeGen} {m : Mapping} {nodes : List NodeId} {i : NodeId}

/-- The mappings of names to statements. -/
def expansions (mappings : List Mapping) : List Mapping :=
  mappings.filter fun m => m.mode = .expand

/-- The node is a directive with a value. -/
def hasStatement (t : Tree) (i : NodeId) : Bool :=
  match t.data i with
  | .directive d => d.value.isSome && d.valueSpan.isSome
  | _ => false

/-- The node is a directive with a value, and no script or style is above it. -/
def isStated (t : Tree) (i : NodeId) : Bool :=
  hasStatement t i && (t.ancestors i).all fun a => (t.rawElement? a).isNone

/-- The mapping ties the front of the directive to the statement made of its value. -/
structure Expands (t : Tree) (generated : Text) (mappings : List Mapping) (i : NodeId)
    (m : Mapping) : Prop where
  source : m.source = nameSpan t i
  mapped : m.mapped.Cuts generated
  /-- The statement is the value between the two texts around it, and the value is a copy. -/
  statement : ∃ value valueSpan, (t.data i).value? = some value ∧
    (t.data i).valueSpan? = some valueSpan ∧
    slice generated m.mapped = opening ++ value ++ closing ∧
    { mode := .offset, source := valueSpan,
      mapped := ⟨m.mapped.start + size opening, m.mapped.stop - size closing⟩ } ∈ mappings

/-! ## One node -/

/-- What is added behind a statement is no matter. -/
theorem Expands.mono (h : Expands t g.text g.mappings i m) {more : Text}
    (htext : g'.text = g.text ++ more) (hmappings : g.mappings ⊆ g'.mappings) :
    Expands t g'.text g'.mappings i m := by
  obtain ⟨value, valueSpan, hvalue, hspan, hslice, hcopy⟩ := h.statement
  obtain ⟨hcuts, hsame⟩ := h.mapped.append more
  rw [htext]
  exact ⟨h.source, hcuts, value, valueSpan, hvalue, hspan, hsame.trans hslice, hmappings hcopy⟩

/-- The names that have been tied to statements, one mapping for each of the nodes. -/
def Stated (t : Tree) (nodes : List NodeId) (g : CodeGen) : Prop :=
  List.Forall₂ (Expands t g.text g.mappings) nodes (expansions g.mappings)

/-- Where something else is added, the names are those that were tied before. -/
theorem Stated.mono (h : Stated t nodes g) {more : Text} (htext : g'.text = g.text ++ more)
    (hmappings : g.mappings ⊆ g'.mappings) (hsame : expansions g'.mappings = expansions g.mappings) :
    Stated t nodes g' := by
  unfold Stated
  rw [hsame]
  exact h.imp fun i m hm => hm.mono htext hmappings

theorem Stated.addText (h : Stated t nodes g) (text : Text) : Stated t nodes (g.addText text) :=
  h.mono rfl (List.Subset.refl _) rfl

theorem Stated.addCode (h : Stated t nodes g) (text : Text) (source : Span) :
    Stated t nodes (g.addCode text .offset source) := by
  refine h.mono rfl (List.subset_append_left _ _) ?_
  unfold expansions CodeGen.addCode CodeGen.addMapping
  rw [List.filter_append]
  simp [CodeGen.addText]

theorem Stated.embed (h : Stated t nodes g) (code : Text) (source : Span) :
    Stated t nodes (embed g code source) :=
  ((h.addText opening).addCode code source).addText closing

/-- Within the statement the value lies between the two texts around it. -/
theorem mem_mappings_embed (g : CodeGen) (code : Text) (source : Span) :
    { mode := .offset, source,
      mapped := ⟨g.size + size opening, (embed g code source).size - size closing⟩ }
        ∈ (embed g code source).mappings := by
  have hsize : (embed g code source).size = g.size + size opening + size code + size closing := by
    rw [CodeGen.size, embed_text, size_append, size_append, size_append, CodeGen.size]
    omega
  have hopening : (g.addText opening).size = g.size + size opening := size_append _ _
  refine List.mem_append_right _ (List.mem_singleton.2 ?_)
  rw [hsize, Nat.add_sub_cancel, CodeGen.nextSpan, hopening]
  rfl

/-- A directive with a value is tied to its statement. -/
theorem Stated.embedDirective (h : Stated t nodes g) {d : Directive}
    (hdata : t.data i = .directive d) :
    Stated t (nodes ++ if hasStatement t i then [i] else []) (embedDirective t g i d) := by
  have hhas : hasStatement t i = (d.value.isSome && d.valueSpan.isSome) := by
    rw [hasStatement, hdata]
  unfold TemplateArtifact.embedDirective
  rw [hhas]
  cases hvalue : d.value with
  | none => simpa using h
  | some value =>
    cases hspan : d.valueSpan with
    | none => simpa using h
    | some valueSpan =>
      have hembed := h.embed value valueSpan
      obtain ⟨hcuts, hslice⟩ := CodeGen.since_cuts (embed_text g value valueSpan)
      rw [if_pos (by rfl)]
      unfold Stated expansions CodeGen.addMapping
      rw [List.filter_append]
      refine List.rel_append ?_ (.cons ⟨rfl, hcuts, value, valueSpan, ?_, ?_, hslice, ?_⟩ .nil)
      · exact hembed.imp fun i m hm =>
          hm.mono (List.append_nil _).symm (List.subset_append_left _ _)
      · rw [hdata]
        exact hvalue
      · rw [hdata]
        exact hspan
      · exact List.mem_append_left _ (mem_mappings_embed g value valueSpan)

/-! ## The two rounds -/

/-- What a node adds to the script, without those below it. -/
def emitNode (t : Tree) (script : CodeGen) (i : NodeId) : CodeGen :=
  match t.data i with
  | .mustache code inner => embed script code inner
  | .directive d => embedDirective t script i d
  | _ => script

/-- **The second round is a walk over the tree.** -/
theorem emit_eq_walk (t : Tree) (fuel : Nat) (script : CodeGen) (i : NodeId) :
    emit t fuel script i = t.walk (isEntered t) (emitNode t) fuel script i := by
  induction fuel generalizing script i with
  | zero => rfl
  | succ fuel ih =>
    have hchildren : (t.children i).foldl (emit t fuel) script
        = (t.children i).foldl (t.walk (isEntered t) (emitNode t) fuel) script :=
      List.foldl_ext _ _ _ fun script c _ => ih script c
    unfold emit Tree.walk isEntered emitNode
    cases hdata : t.data i with
    | element e =>
      have hraw : t.rawElement? i = RawElement.ofName? e.tag := by rw [Tree.rawElement?, hdata]
      rw [Tree.kind_of_data hdata, hraw]
      dsimp only [NodeData.kind]
      cases RawElement.ofName? e.tag with
      | some raw => rfl
      | none => exact hchildren
    | attr a =>
      rw [Tree.kind_of_data hdata]
      exact hchildren
    | _ => rw [Tree.kind_of_data hdata]; rfl

theorem Stated.emitNode (h : Stated t nodes g) (i : NodeId) :
    Stated t (nodes ++ if hasStatement t i then [i] else []) (emitNode t g i) := by
  unfold TemplateArtifact.emitNode
  cases hdata : t.data i with
  | directive d => exact h.embedDirective hdata
  | mustache code inner => simpa [hasStatement, hdata] using h.embed code inner
  | _ => simpa [hasStatement, hdata] using h

theorem Stated.foldl_emitNode (h : Stated t nodes g) (l : List NodeId) :
    Stated t (nodes ++ l.filter (hasStatement t)) (l.foldl (TemplateArtifact.emitNode t) g) := by
  induction l generalizing nodes g with
  | nil => simpa using h
  | cons i l ih =>
    have hnext := ih (h.emitNode i)
    cases hhas : hasStatement t i <;> simpa [hhas] using hnext

/-- The bodies of script elements are tied to no names. -/
theorem Stated.scriptElement {out : Output} (h : Stated t nodes out.script) (i : NodeId) :
    Stated t nodes (scriptElement t out i).script := by
  unfold TemplateArtifact.scriptElement
  split
  · split
    · refine List.foldlRecOn (motive := fun out : Output => Stated t nodes out.script)
        (t.children i) (scriptChild t) h fun out h child _ => ?_
      unfold scriptChild
      split
      · split <;> exact h
      · exact (h.addCode _ _).addText _
      · exact h
    · exact h
  · exact h

/-- **The names that are tied to statements** are those of the directives with a value that have no
script or style above them, one mapping for each and in their order. -/
theorem expansions_ofTree {pos : Nat} {path : List NodeKind} {xs : List Piece} {text : Text}
    {d : Draft} (h : d.Stands pieces .template text pos path xs) (fileName : Text) :
    List.Forall₂ (Expands d.tree (ofTree d.tree fileName).text (ofTree d.tree fileName).mappings)
      (d.tree.preorder.filter (isStated d.tree))
      (expansions (ofTree d.tree fileName).mappings) := by
  have hempty : Stated d.tree [] ({} : Output).script := .nil
  have hbodies := List.foldlRecOn (motive := fun out : Output => Stated d.tree [] out.script)
    d.tree.preorder (scriptElement d.tree) hempty fun _ h i _ => h.scriptElement i
  have hround : (d.tree.children Tree.root).foldl (emit d.tree d.tree.size)
      (d.tree.preorder.foldl (scriptElement d.tree) {}).script
      = ((List.range' 1 (d.tree.size - 1)).filter (d.tree.seen (isEntered d.tree))).foldl
        (emitNode d.tree) (d.tree.preorder.foldl (scriptElement d.tree) {}).script := by
    rw [← Tree.walk_children h.shape]
    exact List.foldl_ext _ _ _ fun script c _ => emit_eq_walk d.tree d.tree.size script c
  have hnodes : d.tree.preorder.filter (isStated d.tree)
      = ((List.range' 1 (d.tree.size - 1)).filter (d.tree.seen (isEntered d.tree))).filter
        (hasStatement d.tree) := by
    have hroot : isStated d.tree Tree.root = false := by
      have hkind : (d.tree.data Tree.root).kind = .root := h.chain.root_kind
      unfold isStated hasStatement
      cases hdata : d.tree.data Tree.root <;> simp [hdata, NodeData.kind] at hkind
      rfl
    rw [Tree.preorder_eq_range h.shape, h.shape.range_eq, List.filter_cons, if_neg (by simp [hroot]),
      List.filter_filter]
    refine List.filter_congr fun i _ => ?_
    rw [isStated, seen_of_stands h]
  have hstated := hbodies.foldl_emitNode
    ((List.range' 1 (d.tree.size - 1)).filter (d.tree.seen (isEntered d.tree)))
  rw [← hround, List.nil_append, ← hnodes] at hstated
  exact hstated

/-! ## The names in the source -/

/-- The source of the mapping begins with the name of the directive and ends where the announcing
sign begins. It is the name, unless there is space in front of the sign, and nothing of the value. -/
structure NamesIn (t : Tree) (text : Text) (i : NodeId) (m : Mapping) (name : Token)
    (gap : List Token) (delimiter : Token) (own behind : List Token) : Prop
    extends t.Announces (tokenize .template text) i name gap delimiter own behind where
  directive : name.kind = .directiveName
  source : m.source = ⟨name.span.start, delimiter.span.start⟩
  reads : slice text m.source = name.lexeme ++ (gap.map Token.lexeme).flatten
  exact : m.source = name.span ↔ gap = []
  blank : (∃ c ∈ slice text m.source, isBlank c = true) ↔ gap ≠ []
  value : ∀ valueSpan, (t.data i).valueSpan? = some valueSpan → m.source.stop < valueSpan.start

theorem exists_namesIn {options : ParseOptions} {text : Text} (htemplate : options.dialect = .template)
    (hend : Scanner.ReachesEnd .template text) {mappings : List Mapping} {generated : Text}
    (h : Expands (Parse.ofText options text).tree generated mappings i m)
    (hi : hasStatement (Parse.ofText options text).tree i = true) :
    ∃ name gap delimiter own behind,
      NamesIn (Parse.ofText options text).tree text i m name gap delimiter own behind := by
  obtain ⟨value, valueSpan, _, hspan, _⟩ := h.statement
  have hkind : (Parse.ofText options text).tree.kind i = .directive := by
    unfold hasStatement at hi
    split at hi
    · next d hdata => exact Tree.kind_of_data hdata
    · simp at hi
  obtain ⟨name, gap, delimiter, own, behind, hdirective, hannounces, hname, hvalue⟩ :=
    Parse.announced_values options text (htemplate ▸ hend) hkind hspan
  rw [htemplate] at hannounces
  have hattribute : name.attribute? ≠ none := by simp [Token.attribute?, hdirective]
  have hsource := h.source.trans hname
  obtain ⟨hcuts, hslice, hsign, hsignSlice⟩ := hannounces.slice_name hend
  refine ⟨name, gap, delimiter, own, behind, hannounces, hdirective, hsource, hsource ▸ hslice, ?_,
    ?_, ?_⟩
  · rw [hsource]
    exact hannounces.name_span_iff hend
  · rw [hsource, hslice]
    exact hannounces.blank_iff hattribute
  · intro valueSpan' hspan'
    obtain rfl := Option.some.inj (hspan.symm.trans hspan')
    have hcovers : delimiter.span.start < delimiter.span.stop :=
      hsign.covers_iff.2 (by simp [hsignSlice])
    rw [hsource]
    exact Nat.lt_of_lt_of_le hcovers hvalue

/-- **Directives and their statements.** Let the scanner come to the end of a template. The mappings
of the mode `expand` in its script are those of the directives with a value that have no script or
style above them, one for each and in the order of the document. What is mapped is the statement made
of the value; and what it is mapped to begins with the name of the directive and goes on to the equals
sign: it is the name itself just if there is no space in front of the sign. -/
theorem directives_expand (options : ParseOptions) (htemplate : options.dialect = .template)
    (text fileName : Text) (hend : Scanner.ReachesEnd .template text) :
    let tree := (Parse.ofText options text).tree
    ∃ script, tree.artifacts fileName = [script] ∧ script.kind = .script ∧
      List.Forall₂ (fun i m => Expands tree script.text script.mappings i m ∧
          ∃ name gap delimiter own behind, NamesIn tree text i m name gap delimiter own behind)
        (tree.preorder.filter (isStated tree)) (expansions script.mappings) := by
  intro tree
  obtain ⟨pos, path, hstands⟩ := pieces_of_tree text
  have htree : tree = (Parse.draft .template text).tree := by
    rw [← htemplate]
    rfl
  have hdialect : tree.dialect = .template := htree ▸ hstands.dialect_eq
  refine ⟨ofTree tree fileName, ?_, rfl, ?_⟩
  · rw [Tree.artifacts, hdialect]
  · have hexpands := expansions_ofTree hstands fileName
    rw [← htree] at hexpands
    refine ((List.forall₂_and_left _ _).2 ⟨fun i hi => (List.mem_filter.1 hi).2, hexpands⟩).imp ?_
    rintro i m ⟨hi, hm⟩
    exact ⟨hm, exists_namesIn htemplate hend hm (Bool.and_eq_true_iff.1 hi).1⟩

/-- A value with a sign in it, a name with space behind it, a directive without a value, and one of a
style element. -/
theorem directives_expand_spaced :
    let text := "<p v-if=\"a=b\" :c\n =d @e><style v-f=g></style>".toList
    let tree := (Parse.ofText { dialect := .template } text).tree
    Scanner.ReachesEnd .template text ∧
      ∃ script, tree.artifacts "x".toList = [script] ∧
        script.text = ";(a=b);\n;(d);\n".toList ∧
        (expansions script.mappings).map Mapping.source = [⟨3, 7⟩, ⟨14, 18⟩] ∧
        List.Forall₂ (fun i m => Expands tree script.text script.mappings i m ∧
            ∃ name gap delimiter own behind, NamesIn tree text i m name gap delimiter own behind)
          (tree.preorder.filter (isStated tree)) (expansions script.mappings) := by
  dsimp only
  have hend : Scanner.ReachesEnd .template
      "<p v-if=\"a=b\" :c\n =d @e><style v-f=g></style>".toList := ⟨40, by decide +kernel⟩
  obtain ⟨script, hartifacts, _, hexpands⟩ := directives_expand { dialect := .template } rfl
    "<p v-if=\"a=b\" :c\n =d @e><style v-f=g></style>".toList "x".toList hend
  have hscript : ((Parse.ofText { dialect := .template }
      "<p v-if=\"a=b\" :c\n =d @e><style v-f=g></style>".toList).tree.artifacts "x".toList).map
        (fun a => (a.text, (expansions a.mappings).map Mapping.source))
        = [(";(a=b);\n;(d);\n".toList, [⟨3, 7⟩, ⟨14, 18⟩])] := by
    decide +kernel
  rw [hartifacts, List.map_singleton, List.singleton_inj, Prod.mk.injEq] at hscript
  exact ⟨hend, script, hartifacts, hscript.1, hscript.2, hexpands⟩

/-- Where there is space in front of the sign it is tied to the statement with the name. -/
theorem names_expand_with_space :
    let text := "<p v-if =\"ok\">".toList
    Scanner.ReachesEnd .template text ∧
      ((tokenize .template text).filter fun t => t.kind = .directiveName).map Token.span
        = [⟨3, 7⟩] ∧
      (((Parse.ofText { dialect := .template } text).tree.artifacts "a".toList).flatMap
        fun a => expansions a.mappings) = [{ mode := .expand, source := ⟨3, 8⟩, mapped := ⟨0, 7⟩ }] ∧
      slice text ⟨3, 8⟩ = "v-if ".toList := by
  refine ⟨⟨10, ?_⟩, ?_, ?_, ?_⟩ <;> decide +kernel

end TemplateArtifact

end HybridMarkup
