/-
The edit of one body.

If the body of a fenced block of the host language is replaced by another, and neither of the two
closes the block early, then nothing changes in what is generated from the document but the file of
this block (`fence_edit_local`). In front of the fence the two documents are the same, and the
scanner does not look so far ahead; behind it they are the same again, and neither the scanner nor
the tree keeps anything of the body but the block itself. So in a workspace all other generated
documents stay as they are, with their versions.
-/
import HybridMarkup.Proofs.AlikeArtifacts
import HybridMarkup.Proofs.BlockReading
import HybridMarkup.Proofs.KeptVersions

set_option autoImplicit false

namespace HybridMarkup

open Text ProseArtifacts

/-- The file of a block: its body, which begins at an offset of the document, and what makes the
file a module. -/
def blockFile (start : Nat) (body : Text) : CodeGen :=
  { text := body ++ "\n\n;export \x7b\x7d;\n".toList
    mappings :=
      [{ mode := .offset
         source := Span.ofLength start (size body)
         mapped := Span.ofLength 0 (size body) }] }

theorem CodeBlock.Contains.blockCode_eq {block : CodeBlock} {language body : Text} {start : Nat}
    (h : block.Contains language start body) : blockCode block = blockFile start body := by
  rw [blockFile, ← h.contentSpan_eq, ← h.text_eq]
  rfl

/-- **A document is opened in an empty workspace and then edited.** The generated documents whose
texts stay the same stay the same. -/
theorem Workspace.edit_keeps {w : Workspace} {path : Path} {options : ParseOptions}
    (hempty : w.files = []) (habsolute : path.isAbsolute = true)
    (hknown : w.config.parseOptions path.normalize = some options) {text text' : Text}
    {number : Nat} {file file' : CodeGen}
    (h : EditedAt number file file'
      ((Parse.ofText options text).tree.artifacts path.normalize.spelling)
      ((Parse.ofText options text').tree.artifacts path.normalize.spelling)) :
    ∃ opened changed f f', w.openDocument path text = (.ok (some f), opened) ∧
      opened.change path text' = (.ok (some f'), changed) ∧
      opened.UpToDate path.normalize options text f ∧
      changed.UpToDate path.normalize options text' f' ∧
      ∀ i, i ≠ number →
        f'.codes[i]?.map VirtualCode.document = f.codes[i]?.map VirtualCode.document := by
  obtain ⟨f, opened, hopen, hdone⟩ := openDocument_upToDate hempty habsolute hknown text
  obtain ⟨f', changed, hchange, hdone', hkeeps⟩ := hdone.change habsolute text'
  refine ⟨opened, changed, f, f', hopen, hchange, hdone, hdone', fun i hi => ?_⟩
  have hpaths : f'.codes.map VirtualCode.path = f.codes.map VirtualCode.path := by
    have hplaces := congrArg (List.map fun name => Path.normalize ⟨name⟩) h.names_eq
    rw [List.map_map, List.map_map] at hplaces
    rw [SourceFile.paths_of_holds hdone.file.holds, SourceFile.paths_of_holds hdone'.file.holds]
    exact hplaces
  refine hkeeps.document_eq hdone.file.held ?_ ?_
  · rw [← List.getElem?_map, hpaths, List.getElem?_map]
  · rw [← List.getElem?_map, ← List.getElem?_map, SourceFile.texts_of_holds hdone.file.holds,
      SourceFile.texts_of_holds hdone'.file.holds, List.getElem?_map, List.getElem?_map]
    exact h.texts_eq i hi

/-- **The edit of a body is local.** A block of the host language is in a document of prose, and
its body is replaced by another; neither closes the block early. Then the artifacts are as many as
before, of the same kinds and with the same names, and all but the file of this block have the same
texts. If the document is opened in an empty workspace and then changed, all other generated
documents are the same that they were, and so are their versions. -/
theorem fence_edit_local (options : ParseOptions) (prose : options.dialect ≠ .template)
    {pre info body body' post : Text} (hinfo : ∀ c ∈ info, isLineBreak c = false)
    (hlanguage : (HostLanguage.ofName? (firstWord info)).isSome = true)
    (hbody : IsBody body) (hbody' : IsBody body')
    (hopens : OpensBlock options.dialect (fencedDocument pre info body post) (size pre)) :
    ∃ number,
      (∀ fileName, EditedAt number
        (blockFile (bodyStart pre info) (blockBody body))
        (blockFile (bodyStart pre info) (blockBody body'))
        ((Parse.ofText options (fencedDocument pre info body post)).tree.artifacts fileName)
        ((Parse.ofText options (fencedDocument pre info body' post)).tree.artifacts fileName)) ∧
      ∀ (w : Workspace) (path : Path), w.files = [] → path.isAbsolute = true →
        w.config.parseOptions path.normalize = some options →
        ∃ opened changed f f',
          w.openDocument path (fencedDocument pre info body post) = (.ok (some f), opened) ∧
          opened.change path (fencedDocument pre info body' post) = (.ok (some f'), changed) ∧
          opened.UpToDate path.normalize options (fencedDocument pre info body post) f ∧
          changed.UpToDate path.normalize options (fencedDocument pre info body' post) f' ∧
          ∀ i, i ≠ number →
            f'.codes[i]?.map VirtualCode.document = f.codes[i]?.map VirtualCode.document := by
  have hword : firstWord info ≠ [] := fun hnil => by
    rw [hnil] at hlanguage
    exact absurd hlanguage (by decide)
  obtain ⟨language, hhost⟩ := Option.isSome_iff_exists.1 hlanguage
  obtain ⟨e, halike, hold, hnew⟩ :=
    Parse.exists_edit prose hinfo hword hbody hbody' hopens
  obtain ⟨_, _, hstands⟩ := pieces_of_tree prose (fencedDocument pre info body post)
  obtain ⟨_, _, hstands'⟩ := pieces_of_tree prose (fencedDocument pre info body' post)
  have hlang : e.old.lang.bind HostLanguage.ofName? = some language := by
    rw [hold.lang_eq]
    exact hhost
  have hlang' : e.new.lang.bind HostLanguage.ofName? = some language := by
    rw [hnew.lang_eq]
    exact hhost
  obtain ⟨number, hedited⟩ := ofTree_editedAt prose halike hstands hstands' hlang hlang'
  rw [hold.blockCode_eq, hnew.blockCode_eq] at hedited
  have hartifacts (fileName : Text) : EditedAt number
      (blockFile (bodyStart pre info) (blockBody body))
      (blockFile (bodyStart pre info) (blockBody body'))
      ((Parse.ofText options (fencedDocument pre info body post)).tree.artifacts fileName)
      ((Parse.ofText options (fencedDocument pre info body' post)).tree.artifacts fileName) := by
    have hfile := hedited fileName
    rw [← artifacts_eq_ofTree prose hstands, ← artifacts_eq_ofTree prose hstands'] at hfile
    exact hfile
  exact ⟨number, hartifacts, fun w path hempty habsolute hknown =>
    Workspace.edit_keeps hempty habsolute hknown (hartifacts path.normalize.spelling)⟩

/-- What stands in front of a second block. -/
def firstBlock : Text := "```js\na\n```\n\n".toList

/-- The first of two blocks is left alone when the second is edited. -/
theorem fence_edit_local_second_block :
    ∃ number, number ≠ 0 ∧
      EditedAt number (blockFile 19 "x".toList) (blockFile 19 "y".toList)
        ((Parse.ofText { dialect := .markdown }
          (fencedDocument firstBlock "js".toList "x".toList [])).tree.artifacts "/p.md".toList)
        ((Parse.ofText { dialect := .markdown }
          (fencedDocument firstBlock "js".toList "y".toList [])).tree.artifacts "/p.md".toList) ∧
      ∃ opened changed f f',
        ({} : Workspace).openDocument (.ofString "/p.md")
          (fencedDocument firstBlock "js".toList "x".toList []) = (.ok (some f), opened) ∧
        opened.change (.ofString "/p.md")
          (fencedDocument firstBlock "js".toList "y".toList []) = (.ok (some f'), changed) ∧
        ∀ i, i ≠ number →
          f'.codes[i]?.map VirtualCode.document = f.codes[i]?.map VirtualCode.document := by
  have hopens : OpensBlock .markdown (fencedDocument firstBlock "js".toList "x".toList [])
      (size firstBlock) := by
    unfold OpensBlock
    decide +kernel
  have hinfo : ∀ c ∈ "js".toList, isLineBreak c = false :=
    List.forall_mem_cons.2 ⟨rfl, List.forall_mem_singleton.2 rfl⟩
  have hlanguage : (HostLanguage.ofName? (firstWord "js".toList)).isSome = true := rfl
  have hbody : IsBody "x".toList := ⟨by decide, by decide⟩
  have hbody' : IsBody "y".toList := ⟨by decide, by decide⟩
  obtain ⟨number, hedited, hkept⟩ := fence_edit_local { dialect := .markdown } (by decide) hinfo
    hlanguage hbody hbody' hopens
  obtain ⟨opened, changed, f, f', hopen, hchange, -, -, hsame⟩ :=
    hkept {} (.ofString "/p.md") rfl rfl (by decide +kernel)
  refine ⟨number, ?_, hedited "/p.md".toList, opened, changed, f, f', hopen, hchange, hsame⟩
  rintro rfl
  obtain ⟨name, hold⟩ := (hedited "/p.md".toList).old
  have hfirst : ((Parse.ofText { dialect := .markdown } (fencedDocument firstBlock "js".toList
      "x".toList [])).tree.artifacts "/p.md".toList)[0]?.map Artifact.text
      = some "a\n\n;export \x7b\x7d;\n".toList := by decide +kernel
  rw [hold] at hfirst
  have htext : "x\n\n;export \x7b\x7d;\n".toList = "a\n\n;export \x7b\x7d;\n".toList :=
    Option.some.inj hfirst
  exact absurd htext (by decide)

end HybridMarkup
