/-
What is done twice in a row is done once.

An editor may open a document again that has not changed, or ask for an update when there is
nothing to do. The second time finds what the first one has left: the text is stored already, so its
document stays, and the source file has parsed the version that there is, or it fails as before. All
that can be seen of the second time is that the file notes that nothing was parsed
(`Workspace.unmark`).

The point is that an update leaves its own document alone. This is where the history comes in: a
workspace that has come about by actions lists generated documents under other paths than that of
the file (`Reached.regular`), whatever else the actions were and however the files on the disk have
changed in between.
-/
import HybridMarkup.Proofs.Isolation
import HybridMarkup.Proofs.Rebuilds

set_option autoImplicit false

namespace HybridMarkup

/-- A text that a document has already is stored by doing nothing. -/
theorem Overlay.write_of_held {o : Overlay} {path : Path} {d : Document}
    (habsolute : path.isAbsolute = true) (hheld : o.held? path.normalize = some d) :
    o.write path d.text = .ok (d, o) := by
  unfold write
  rw [if_pos habsolute]
  dsimp only
  rw [hheld]
  exact if_pos rfl

namespace SourceFile

variable {f f' : SourceFile} {o o' : Overlay} {result : Except StoreError Bool}

theorem unmarked_of_not_rebuilt (h : f.rebuilt = false) : f.unmarked = f := by
  rw [unmarked, ← h]

/-- What the last update has parsed is under an absolute path. -/
theorem isAbsolute_of_rebuilt (hupdate : f.update o = (result, f', o'))
    (hrebuilt : f'.rebuilt = true) : f'.path.isAbsolute = true := by
  cases outcome_of_update hupdate with
  | gone | seen | failed => simp [unmarked] at hrebuilt
  | rebuilt _ _ hwrite => exact isAbsolute_of_writeArtifacts hwrite

/-- **An update behind an update** finds nothing to do, or fails like the first one. -/
theorem update_again (hplaced : ∀ c ∈ f.codes, c.path.normalize = c.path ∧
    c.path ≠ f.path.normalize) (hupdate : f.update o = (result, f', o')) :
    f'.update o' = (result.map fun _ => false, f'.unmarked, o') := by
  have hread := read?_update f o hplaced
  rw [hupdate] at hread
  cases outcome_of_update hupdate with
  | gone | seen => exact hupdate
  | failed _ _ hwrite =>
    -- in the store of an editor the first artifact was refused
    obtain ⟨-, rfl⟩ := writeArtifacts_error hwrite
    exact hupdate
  | @rebuilt d codes written hd _ hwrite =>
    rw [hd] at hread
    unfold update
    dsimp only
    rw [show (f.built d codes).path = f.path from rfl, hread]
    exact if_pos rfl

end SourceFile

namespace Workspace

variable {config : Config} {w w' : Workspace} {p : Path}
  {result : Except StoreError (Option SourceFile)}

/-! ## Workspaces as they come about -/

/-- A workspace comes about by actions. In between the files on the disk may change. -/
inductive Reached (config : Config) : Workspace → Prop
  | fresh (disk : Disk) : Reached config (fresh config disk)
  | perform {w : Workspace} (h : Reached config w) (a : Action) : Reached config (w.perform a)
  | disk {w : Workspace} (h : Reached config w) (disk : Disk) :
      Reached config { w with store := { w.store with disk } }

/-- What every source file of such a workspace is like. -/
structure FileRegular (config : Config) (f : SourceFile) : Prop where
  placed : FilePlaced f
  known : config.parseOptions f.path ≠ none
  absolute : f.rebuilt = true → f.path.isAbsolute = true

/-- All source files are like that. -/
def Regular (w : Workspace) : Prop := ∀ f ∈ w.files, FileRegular w.config f

/-- What a source file lists is not under its own path. -/
theorem FilePlaced.apart {f : SourceFile} (h : FilePlaced f) :
    ∀ c ∈ f.codes, c.path.normalize = c.path ∧ c.path ≠ f.path.normalize := by
  intro c hc
  obtain ⟨hcode, hgenerated⟩ := h.codes c hc
  refine ⟨hcode, fun heq => Path.not_isGeneratedFrom_self f.path ?_⟩
  rwa [heq, h.normal] at hgenerated

theorem Regular.fileAt (h : w.Regular) (hnormal : p.normalize = p) (options : ParseOptions) :
    FilePlaced (w.fileAt p options) :=
  Placed.fileAt (fun f hf => (h f hf).placed) hnormal options

theorem Updated.regular (h : w.Updated p result w') (hregular : w.Regular)
    (hnormal : p.normalize = p) : w'.config = w.config ∧ w'.Regular := by
  cases h with
  | unknown => exact ⟨rfl, hregular⟩
  | @known options _ f store hknown hupdate =>
    refine ⟨rfl, fun g hg => ?_⟩
    rcases mem_putFile hg with rfl | hg
    · refine ⟨(hregular.fileAt hnormal options).update hupdate, ?_,
        SourceFile.isAbsolute_of_rebuilt hupdate⟩
      rw [(SourceFile.path_of_update hupdate).1, path_fileAt]
      exact Option.ne_none_iff_exists'.2 ⟨options, hknown⟩
    · exact hregular g hg

/-- **One step.** An action keeps all source files regular. -/
theorem perform_regular (h : w.Regular) (a : Action) :
    (w.perform a).config = w.config ∧ (w.perform a).Regular := by
  have hopened {path : Path} {text : Text} {result : Except StoreError (Option SourceFile)}
      {w' : Workspace} (hopened : w.Opened path.normalize text result w') :
      w'.config = w.config ∧ w'.Regular := by
    cases hopened with
    | refused => exact ⟨rfl, h⟩
    | @stored _ store _ _ _ hupdated =>
      exact hupdated.regular (w := { w with store }) h (Path.normalize_normalize path)
  cases a with
  | openDocument path text | change path text => exact hopened (w.opened path text)
  | update path => exact (w.updated path).regular h (Path.normalize_normalize path)
  | close path =>
    rw [perform, close_eq]
    exact ⟨rfl, fun f hf => h f (List.mem_filter.1 hf).1⟩

/-- **Every history** leaves regular source files. -/
theorem Reached.regular (h : Reached config w) : w.config = config ∧ w.Regular := by
  induction h with
  | fresh disk => exact ⟨rfl, fun f hf => absurd hf List.not_mem_nil⟩
  | perform _ a ih =>
    obtain ⟨hconfig, hregular⟩ := perform_regular ih.2 a
    exact ⟨hconfig.trans ih.1, hregular⟩
  | disk _ _ ih => exact ih

/-! ## Once more -/

/-- The workspace in which the source file at a path notes that nothing was parsed. -/
def unmark (w : Workspace) (p : Path) : Workspace :=
  { w with files := w.files.map fun f => if f.path = p then f.unmarked else f }

theorem unmark_eq (h : ∀ f ∈ w.files, f.path = p → f.unmarked = f) : w.unmark p = w := by
  have hfiles : w.files.map (fun f => if f.path = p then f.unmarked else f) = w.files := by
    refine (List.map_congr_left fun f hf => ?_).trans (List.map_id _)
    split
    · next hpath => exact h f hf hpath
    · rfl
  rw [unmark, hfiles]

theorem unmark_putFile (w : Workspace) (f : SourceFile) :
    (w.putFile f).unmark f.path = w.putFile f.unmarked := by
  have hothers : ((w.dropFile f.path).files.map fun g => if g.path = f.path then g.unmarked else g)
      = (w.dropFile f.path).files := by
    refine (List.map_congr_left fun g hg => if_neg ?_).trans (List.map_id _)
    simpa using (List.mem_filter.1 hg).2
  unfold unmark putFile
  dsimp only
  rw [List.map_cons, if_pos rfl, hothers]
  rfl

/-- Of two source files that are put in one place the second one stays. -/
theorem putFile_putFile (w : Workspace) {f g : SourceFile} (h : g.path = f.path) :
    (w.putFile f).putFile g = w.putFile g := by
  have hothers : ((w.putFile f).dropFile g.path).files = (w.dropFile g.path).files := by
    rw [h]
    change (f :: w.files.filter fun x => x.path != f.path).filter (fun x => x.path != f.path)
      = w.files.filter fun x => x.path != f.path
    rw [List.filter_cons_of_neg (by simp), List.filter_filter]
    simp
  change { w with files := g :: ((w.putFile f).dropFile g.path).files } = _
  rw [hothers]
  rfl

/-- An update comes to one thing only. -/
theorem update_of_updated {path : Path} (h : w.Updated path.normalize result w') :
    w.update path = (result, w') := by
  cases h with
  | unknown hknown =>
    unfold update
    dsimp only
    rw [hknown]
  | @known options result f store hknown hupdate =>
    unfold fileAt at hupdate
    unfold update
    dsimp only
    rw [hknown]
    dsimp only
    rw [hupdate]
    rcases result with e | made <;> rfl

/-- **An update behind an update** changes nothing but the note. -/
theorem Updated.again (h : w.Updated p result w') (hregular : w.Regular)
    (hnormal : p.normalize = p) :
    w'.Updated p (result.map (Option.map SourceFile.unmarked)) (w'.unmark p) := by
  cases h with
  | unknown hknown =>
    -- without a dialect there is no source file
    rw [unmark_eq fun f hf hpath => absurd (hpath ▸ hknown) (hregular f hf).known]
    exact .unknown hknown
  | @known options result f store hknown hupdate =>
    have hpath : f.path = p := (SourceFile.path_of_update hupdate).1.trans (w.path_fileAt p options)
    have hstore : ({ w with store }.putFile f).store = store := rfl
    have hconfig : ({ w with store }.putFile f).config = w.config := rfl
    have hat : ({ w with store }.putFile f).fileAt p options = f := by
      rw [fileAt, held?_putFile, if_pos hpath.symm, Option.getD_some]
    have hagain := SourceFile.update_again (hregular.fileAt hnormal options).apart hupdate
    rw [← hconfig] at hknown
    have hupdated : ({ w with store }.putFile f).Updated p _ _ :=
      .known hknown (by rw [hat, hstore, hagain])
    have hresult : (Except.map (fun _ => some f) result).map (Option.map SourceFile.unmarked)
        = (result.map fun _ => false).map fun _ => some f.unmarked := by
      cases result <;> rfl
    rw [hresult, ← hpath, unmark_putFile, hpath]
    have hput : { { w with store }.putFile f with store }.putFile f.unmarked
        = { w with store }.putFile f.unmarked := putFile_putFile { w with store } rfl
    rwa [hput] at hupdated

/-- The document at a path is not touched by an update of the path. -/
theorem Updated.held?_eq (h : w.Updated p result w') (hregular : w.Regular)
    (hnormal : p.normalize = p) : w'.store.held? p = w.store.held? p := by
  cases h with
  | unknown => rfl
  | @known options _ f store _ hupdate =>
    have hbefore := hregular.fileAt hnormal options
    have hafter := hbefore.update hupdate
    have hpath : f.path = p := (SourceFile.path_of_update hupdate).1.trans (w.path_fileAt p options)
    refine SourceFile.frame_update hupdate (fun c hc => (hbefore.apart c hc).1)
      (fun c hc heq => (hbefore.apart c hc).2 ?_) fun c hc heq => (hafter.apart c hc).2 ?_
    · rw [heq, path_fileAt, hnormal]
    · rw [heq, hpath, hnormal]

/-- A text that can be stored is stored, and then the path is updated. -/
theorem openDocument_of_write {path : Path} {text : Text} {d : Document} {store : Overlay}
    (hwrite : w.store.write path.normalize text = .ok (d, store)) :
    w.openDocument path text = { w with store }.update path := by
  unfold openDocument
  dsimp only
  rw [hwrite]
  dsimp only
  unfold update
  rw [Path.normalize_normalize]

/-- **Opening a document again, and updating again, changes nothing.** Whatever has been done in a
workspace that was empty, with whatever has become of the files on the disk in between: if a
document is opened at any path with any text, and then once more, then the second time leaves the
workspace as the first one has left it, documents, versions, source files and all, but for the note
of the source file at the path that nothing has been parsed; and it is answered by the same, with
this note. So it is with two updates of a path. -/
theorem repeated_same (h : Reached config w) (path : Path) (text : Text) :
    (w.openDocument path text).2.openDocument path text
        = ((w.openDocument path text).1.map (Option.map SourceFile.unmarked),
          (w.openDocument path text).2.unmark path.normalize) ∧
      (w.update path).2.update path
        = ((w.update path).1.map (Option.map SourceFile.unmarked),
          (w.update path).2.unmark path.normalize) := by
  obtain ⟨-, hregular⟩ := h.regular
  have hnormal := Path.normalize_normalize path
  refine ⟨?_, update_of_updated ((w.updated path).again hregular hnormal)⟩
  have hopened := w.opened path text
  rcases hfirst : w.openDocument path text with ⟨result, w'⟩
  rw [hfirst] at hopened
  dsimp only at hopened ⊢
  cases hopened with
  | @refused e hwrite =>
    -- at a relative path there is nothing that has been parsed
    have hrelative : path.normalize.isAbsolute ≠ true := fun habsolute => by
      obtain ⟨d, o, hstored, -⟩ := w.store.write_absolute habsolute text
      rw [hwrite] at hstored
      contradiction
    have hnote (f : SourceFile) (hf : f ∈ w.files) (hpath : f.path = path.normalize) :
        f.unmarked = f := by
      refine SourceFile.unmarked_of_not_rebuilt (Bool.eq_false_iff.2 fun hrebuilt => hrelative ?_)
      rw [← hpath]
      exact (hregular f hf).absolute hrebuilt
    rw [unmark_eq hnote]
    exact hfirst
  | @stored d store _ _ hwrite hupdated =>
    obtain ⟨habsolute, -, rfl⟩ := Overlay.write_ok hwrite
    have hheld : w'.store.held? path.normalize.normalize = some d := by
      rw [hnormal, hupdated.held?_eq (w := { w with store }) hregular hnormal,
        (Overlay.written_of_write hwrite).held?_eq, if_pos hnormal.symm]
    rw [openDocument_of_write (Overlay.write_of_held habsolute hheld)]
    exact update_of_updated (hupdated.again (w := { w with store }) hregular hnormal)

/-- A document has been opened and closed again. -/
def closedAgain : Workspace :=
  ((fresh {} {}).perform (.openDocument (.ofString "/p.md") "```ts\na\n```\n".toList)).perform
    (.close (.ofString "/p.md"))

/-- Then it has come to be on the disk, and has been found there. -/
def foundOnDisk : Workspace :=
  { closedAgain with
    store := { closedAgain.store with disk := { entries := [(["p.md".toList], .file ['a'])] } }
  }.perform (.update (.ofString "/p.md"))

/-- It is opened with another text, which is parsed, and then once more, by which nothing is. -/
theorem repeated_same_found :
    let path := Path.ofString "/d/../p.md"
    Reached {} foundOnDisk ∧
      (foundOnDisk.openDocument path ['b']).2.openDocument path ['b']
        = ((foundOnDisk.openDocument path ['b']).1.map (Option.map SourceFile.unmarked),
          (foundOnDisk.openDocument path ['b']).2.unmark path.normalize) ∧
      (foundOnDisk.held? path.normalize).map SourceFile.parsedVersion = some (some 0) ∧
      ((foundOnDisk.openDocument path ['b']).2.held? path.normalize).map SourceFile.rebuilt
        = some true := by
  intro path
  have hclosed : Reached {} closedAgain := .perform (.perform (.fresh {}) _) _
  have hreached : Reached {} foundOnDisk := .perform (.disk hclosed _) _
  exact ⟨hreached, (repeated_same hreached path ['b']).1, by decide +kernel, by decide +kernel⟩

end Workspace

end HybridMarkup
