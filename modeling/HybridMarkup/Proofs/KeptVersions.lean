/-
Which documents a change leaves alone.

The store of an editor does not replace a text by the same text (`Overlay.Stored`), and what is
generated from a document is written under paths that are all different, and different from that of
the document. So the writes of an update do not get into each other's way: each generated document
is there in the end, nothing else has changed, and one whose text has stayed the same is the same
document still, with its version (`Overlay.Holds`).

A source file is up to date if what it holds is what the text in the store gives
(`SourceFile.UpToDate`). Opening a document in an empty workspace brings it there
(`openDocument_upToDate`), and every change keeps it there and moves the versions of those generated
documents only whose texts have changed (`UpToDate.change`).
-/
import HybridMarkup.Proofs.Drift
import HybridMarkup.Workspace

set_option autoImplicit false

namespace HybridMarkup

/-! ## Lists with one entry for a path -/

section

variable {α : Type} (key : α → Path) (entries : List α)

theorem find?_dropped (path q : Path) :
    (entries.filter fun x => key x != path).find? (fun x => key x == q)
      = if q = path then none else entries.find? fun x => key x == q := by
  rw [List.find?_filter]
  split
  · next heq =>
    subst heq
    refine List.find?_eq_none.2 fun x _ => ?_
    simp
  · next hne =>
    congr 1
    funext x
    by_cases hx : key x = q
    · simp [hx, hne]
    · simp [hx]

theorem find?_put (x : α) (q : Path) :
    (x :: entries.filter fun y => key y != key x).find? (fun y => key y == q)
      = if q = key x then some x else entries.find? fun y => key y == q := by
  split
  · next heq =>
    subst heq
    exact List.find?_cons_of_pos (beq_self_eq_true _)
  · next hne =>
    rw [List.find?_cons_of_neg (by simpa using Ne.symm hne), find?_dropped, if_neg hne]

end

/-! ## Writing -/

namespace Overlay

variable {o o' : Overlay} {path q : Path} {text : Text} {d : Document}

theorem held?_drop (o : Overlay) (path q : Path) :
    (o.drop path).held? q = if q = path then none else o.held? q :=
  find?_dropped Document.path o.documents path q

theorem held?_put (o : Overlay) (d : Document) (q : Path) :
    (o.put d).held? q = if q = d.path then some d else o.held? q :=
  find?_put Document.path o.documents d q

/-- What a write does: the document with this text stays, or another takes its place with the next
version, or the first one comes there with version 1. -/
inductive Written (o : Overlay) (path : Path) (text : Text) : Document → Overlay → Prop
  | kept {d : Document} (hheld : o.held? path = some d) (htext : d.text = text) :
      Written o path text d o
  | replaced {before : Document} (hheld : o.held? path = some before) (htext : before.text ≠ text) :
      Written o path text ⟨path, before.version + 1, text⟩ (o.put ⟨path, before.version + 1, text⟩)
  | first (hheld : o.held? path = none) :
      Written o path text ⟨path, 1, text⟩ (o.put ⟨path, 1, text⟩)

theorem written_of_write (h : o.write path text = .ok (d, o')) :
    o.Written path.normalize text d o' := by
  unfold write at h
  split at h
  · dsimp only at h
    split at h
    · next before hheld =>
      split at h
      · next htext =>
        obtain ⟨rfl, rfl⟩ := Prod.mk.inj (Except.ok.inj h)
        exact .kept hheld htext
      · next htext =>
        obtain ⟨rfl, rfl⟩ := Prod.mk.inj (Except.ok.inj h)
        exact .replaced hheld htext
    · next hheld =>
      obtain ⟨rfl, rfl⟩ := Prod.mk.inj (Except.ok.inj h)
      exact .first hheld
  · simp at h

theorem Written.held?_eq (h : o.Written path text d o') (q : Path) :
    o'.held? q = if q = path then some d else o.held? q := by
  cases h with
  | kept hheld _ =>
    split
    · next heq => rw [heq, hheld]
    · rfl
  | replaced => exact held?_put o _ q
  | first => exact held?_put o _ q

theorem Written.disk_eq (h : o.Written path text d o') : o'.disk = o.disk := by
  cases h <;> rfl

theorem Written.version_le (h : o.Written path text d o') {before : Document}
    (hbefore : o.held? path = some before) : d = before ∨ before.version < d.version := by
  cases h with
  | kept hheld _ => exact .inl (Option.some.inj (hheld.symm.trans hbefore))
  | replaced hheld _ =>
    obtain rfl := Option.some.inj (hheld.symm.trans hbefore)
    exact .inr (Nat.lt_succ_self _)
  | first hheld => simp [hheld] at hbefore

/-- A text is stored as a document. The version moves if the text is another than before. -/
structure Stored (o : Overlay) (path : Path) (text : Text) (d : Document) (o' : Overlay) :
    Prop where
  held : o'.held? path = some d
  text_eq : d.text = text
  frame : ∀ q, q ≠ path → o'.held? q = o.held? q
  keeps : ∀ before, o.held? path = some before → before.text = text → d = before
  moves : ∀ before, o.held? path = some before → before.text ≠ text → d.version ≠ before.version

theorem Written.stored (h : o.Written path text d o') : o.Stored path text d o' := by
  refine ⟨by rw [h.held?_eq, if_pos rfl], ?_, fun q hq => by rw [h.held?_eq, if_neg hq],
    fun before hbefore htext => ?_, fun before hbefore hne => ?_⟩
  · cases h with
    | kept _ htext => exact htext
    | replaced | first => rfl
  · cases h with
    | kept hheld _ => exact Option.some.inj (hheld.symm.trans hbefore)
    | replaced hheld hne =>
      obtain rfl := Option.some.inj (hheld.symm.trans hbefore)
      exact absurd htext hne
    | first hheld => simp [hheld] at hbefore
  · cases h with
    | kept hheld htext =>
      obtain rfl := Option.some.inj (hheld.symm.trans hbefore)
      exact absurd htext hne
    | replaced hheld _ =>
      obtain rfl := Option.some.inj (hheld.symm.trans hbefore)
      exact Nat.succ_ne_self _
    | first hheld => simp [hheld] at hbefore

theorem write_absolute (o : Overlay) (h : path.isAbsolute = true) (text : Text) :
    ∃ d o', o.write path text = .ok (d, o') ∧ o.Stored path.normalize text d o' := by
  obtain ⟨⟨d, o'⟩, hwrite⟩ : ∃ stored, o.write path text = .ok stored := by
    unfold write
    rw [if_pos h]
    dsimp only
    split
    · split <;> exact ⟨_, rfl⟩
    · exact ⟨_, rfl⟩
  exact ⟨d, o', hwrite, (written_of_write hwrite).stored⟩

/-- Several documents are removed. -/
theorem held?_removals (paths : List Path) (o : Overlay) (q : Path) :
    (paths.foldl (fun o path => (o.remove path).2) o).held? q
      = if q ∈ paths.map Path.normalize then none else o.held? q := by
  induction paths generalizing o with
  | nil => rfl
  | cons path paths ih =>
    rw [List.foldl_cons, ih, show (o.remove path).2.held? q = _ from held?_drop o _ q]
    by_cases hq : q ∈ paths.map Path.normalize
    · simp [hq]
    · simp [hq]

theorem held?_removeStale (old new : List VirtualCode) (o : Overlay) (q : Path) :
    (SourceFile.removeStale old new o).held? q
      = if ∃ c ∈ old, c.path ∉ new.map VirtualCode.path ∧ c.path.normalize = q then none
        else o.held? q := by
  have hremovals := held?_removals ((old.filter fun c =>
    !(new.map VirtualCode.path).contains c.path).map VirtualCode.path) o q
  rw [List.foldl_map] at hremovals
  refine hremovals.trans (if_congr ?_ rfl rfl)
  simp [and_assoc]

/-- Generated documents that were there before with their texts are the same that were there. -/
def Keeps (o : Overlay) (codes : List VirtualCode) : Prop :=
  ∀ c ∈ codes, ∀ before, o.held? c.path = some before → before.text = c.document.text →
    c.document = before

/-- Generated documents are stored, and nothing else has changed. -/
structure Holds (o o' : Overlay) (codes : List VirtualCode) : Prop where
  held : ∀ c ∈ codes, o'.held? c.path = some c.document
  frame : ∀ q, q ∉ codes.map VirtualCode.path → o'.held? q = o.held? q
  keeps : o.Keeps codes

theorem Holds.nil (o : Overlay) : o.Holds o [] :=
  ⟨fun _ hc => absurd hc List.not_mem_nil, fun _ _ => rfl, fun _ hc => absurd hc List.not_mem_nil⟩

/-- Storing one more document before the others. -/
theorem Holds.cons {written : Overlay} {c : VirtualCode} {codes : List VirtualCode}
    (hstored : o.Stored c.path c.document.text c.document written) (h : written.Holds o' codes)
    (hfresh : c.path ∉ codes.map VirtualCode.path) : o.Holds o' (c :: codes) := by
  refine ⟨fun c' hc' => ?_, fun q hq => ?_, fun c' hc' before hbefore htext => ?_⟩
  · rcases List.mem_cons.1 hc' with rfl | hc'
    · exact (h.frame _ hfresh).trans hstored.held
    · exact h.held c' hc'
  · obtain ⟨hne, hq⟩ := not_or.1 (List.mem_cons.not.1 hq)
    exact (h.frame q hq).trans (hstored.frame q hne)
  · rcases List.mem_cons.1 hc' with rfl | hc'
    · exact hstored.keeps before hbefore htext
    · have hne : c'.path ≠ c.path := fun heq => hfresh (heq ▸ List.mem_map_of_mem hc')
      exact h.keeps c' hc' before ((hstored.frame _ hne).trans hbefore) htext

/-- A generated document with its path and its text is the same as before. -/
theorem Keeps.document_eq {codes codes' : List VirtualCode}
    (hheld : ∀ c ∈ codes, o.held? c.path = some c.document) (h : o.Keeps codes') {i : Nat}
    (hpath : codes'[i]?.map VirtualCode.path = codes[i]?.map VirtualCode.path)
    (htext : codes'[i]?.map (fun c => c.document.text) = codes[i]?.map fun c => c.document.text) :
    codes'[i]?.map VirtualCode.document = codes[i]?.map VirtualCode.document := by
  cases hc : codes[i]? with
  | none =>
    rw [hc] at hpath
    rw [Option.map_eq_none_iff.1 hpath]
  | some c =>
    rw [hc] at hpath htext
    obtain ⟨c', hc', hpath⟩ := Option.map_eq_some_iff.1 hpath
    rw [hc'] at htext ⊢
    have hbefore : o.held? c'.path = some c.document := by
      rw [hpath]
      exact hheld c (List.mem_of_getElem? hc)
    exact congrArg some
      (h c' (List.mem_of_getElem? hc') c.document hbefore (Option.some.inj htext).symm)

end Overlay

namespace SourceFile

/-- **Artifacts with different places are all stored**, and none gets into the way of another. -/
theorem writeArtifacts_overlay (source : Path) {artifacts : List Artifact}
    (habsolute : ∀ a ∈ artifacts, (⟨a.fileName⟩ : Path).isAbsolute = true)
    (hnodup : (artifacts.map Artifact.path).Nodup) (o : Overlay) :
    ∃ codes o', writeArtifacts source artifacts o = (.ok codes, o') ∧ o.Holds o' codes := by
  induction artifacts generalizing o with
  | nil => exact ⟨[], o, rfl, .nil o⟩
  | cons a artifacts ih =>
    obtain ⟨hfirst, hrest⟩ := List.nodup_cons.1 hnodup
    obtain ⟨d, written, hwrite, hstored⟩ := o.write_absolute (habsolute a List.mem_cons_self) a.text
    obtain ⟨codes, o', hcodes, hholds⟩ :=
      ih (fun b hb => habsolute b (List.mem_cons_of_mem _ hb)) hrest written
    refine ⟨_, o', writeArtifacts_cons hwrite hcodes, .cons ?_ hholds ?_⟩
    · show o.Stored d.path d.text d written
      rw [(Overlay.write_ok hwrite).2.1, hstored.text_eq]
      exact hstored
    · show d.path ∉ _
      rw [(Overlay.write_ok hwrite).2.1, paths_of_holds (writeArtifacts_ok hcodes)]
      exact hfirst

theorem texts_of_holds {source : Path} {artifacts : List Artifact}
    {codes : List VirtualCode} (h : List.Forall₂ (Holds source) artifacts codes) :
    codes.map (fun c => c.document.text) = artifacts.map Artifact.text := by
  induction h with
  | nil => rfl
  | cons hfirst _ ih => rw [List.map_cons, List.map_cons, hfirst.text_eq, ih]

/-! ## Source files that are up to date -/

/-- What a source file holds is what a text gives that the store has under its path. -/
structure UpToDate (f : SourceFile) (path : Path) (options : ParseOptions) (text : Text)
    (o : Overlay) : Prop where
  path_eq : f.path = path
  options_eq : f.options = options
  parsed : ∃ d, o.held? path = some d ∧ d.text = text ∧ f.parsedVersion = some d.version
  holds : List.Forall₂ (Holds path)
    ((Parse.ofText options text).tree.artifacts path.spelling) f.codes
  held : ∀ c ∈ f.codes, o.held? c.path = some c.document

section

variable {path : Path} (habsolute : path.isAbsolute = true) (hnormal : path.normalize = path)
  {f : SourceFile} {d : Document} {o : Overlay}

include hnormal

theorem update_overlay (hpath : f.path = path) (hd : o.held? path = some d) :
    f.update o =
      if f.parsedVersion = some d.version then (.ok false, { f with rebuilt := false }, o)
      else { f with rebuilt := false }.rebuild d o := by
  have hread : FileStore.read? o f.path = some d := by
    show Overlay.read? o f.path = some d
    unfold Overlay.read?
    dsimp only
    rw [hpath, hnormal, hd]
  unfold update
  dsimp only
  rw [hread]

include habsolute

/-- What is generated from a document is under other paths than it. -/
theorem UpToDate.path_ne {options : ParseOptions} {text : Text}
    (h : f.UpToDate path options text o) {c : VirtualCode} (hc : c ∈ f.codes) :
    c.path.normalize = c.path ∧ c.path ≠ path := by
  obtain ⟨a, ha, hholds⟩ := exists_of_holds h.holds hc
  rw [hholds.path_eq]
  exact ⟨Path.normalize_normalize _, Tree.artifact_path_ne habsolute hnormal ha⟩

/-- **A source file that is made anew is up to date.** -/
theorem rebuild_overlay (hpath : f.path = path) (hd : o.held? path = some d)
    (hold : ∀ c ∈ f.codes, c.path.normalize = c.path ∧ c.path ≠ path) :
    ∃ f' o', f.rebuild d o = (.ok true, f', o') ∧ f'.UpToDate path f.options d.text o' ∧
      o.Keeps f'.codes := by
  obtain ⟨codes, written, hcodes, hholds⟩ := writeArtifacts_overlay path
    (fun a ha => Tree.isAbsolute_artifact habsolute ha)
    (Tree.artifacts_placed (Parse.ofText f.options d.text).tree habsolute) o
  have hmade := writeArtifacts_ok hcodes
  have hpaths := paths_of_holds hmade
  -- the document is none of the generated ones, and neither it nor they are stale
  have hsource : path ∉ codes.map VirtualCode.path := by
    rw [hpaths]
    intro hin
    obtain ⟨a, ha, heq⟩ := List.mem_map.1 hin
    exact Tree.artifact_path_ne habsolute hnormal ha heq
  have hstale (q : Path) (hq : q ∈ codes.map VirtualCode.path ∨ q = path) :
      (removeStale f.codes codes written).held? q = written.held? q := by
    rw [Overlay.held?_removeStale, if_neg]
    rintro ⟨c, hc, hnot, heq⟩
    obtain ⟨hcnormal, hcne⟩ := hold c hc
    rw [hcnormal] at heq
    rcases hq with hq | rfl
    · exact hnot (heq ▸ hq)
    · exact hcne heq
  refine ⟨{ f with
      parsedVersion := some d.version
      rebuilt := true
      parse := some (Parse.ofText f.options d.text)
      codes }, removeStale f.codes codes written, ?_,
    ⟨hpath, rfl, ⟨d, ?_, rfl, rfl⟩, hmade, fun c hc => ?_⟩, hholds.keeps⟩
  · unfold rebuild
    dsimp only
    rw [hpath, hcodes]
  · rw [hstale path (.inr rfl), hholds.frame path hsource, hd]
  · rw [hstale c.path (.inl (List.mem_map_of_mem hc))]
    exact hholds.held c hc

end

end SourceFile

namespace Workspace

/-- There is a source file for the document at a path, which is up to date with a text. -/
structure UpToDate (w : Workspace) (path : Path) (options : ParseOptions) (text : Text)
    (f : SourceFile) : Prop where
  known : w.config.parseOptions path = some options
  held : w.held? path = some f
  file : f.UpToDate path options text w.store

variable {w : Workspace} {path : Path} {options : ParseOptions} {text : Text} {f f' : SourceFile}
  {d : Document} {written store : Overlay}

/-- A document whose source file can be updated is opened. -/
theorem openDocument_of (hknown : w.config.parseOptions path.normalize = some options)
    (hwrite : w.store.write path.normalize text = .ok (d, written))
    (hfile : (w.held? path.normalize).getD { path := path.normalize, options } = f) {made : Bool}
    (hupdate : f.update written = (.ok made, f', store)) :
    w.openDocument path text = (.ok (some f'), { w with store }.putFile f') := by
  have hfile' : (held? { w with store := written } path.normalize).getD
      { path := path.normalize, options } = f := hfile
  unfold openDocument
  dsimp only
  rw [hwrite]
  dsimp only
  unfold update
  dsimp only
  rw [Path.normalize_normalize _, hknown]
  dsimp only
  rw [hfile', hupdate]

theorem upToDate_putFile (hknown : w.config.parseOptions path = some options)
    (h : f.UpToDate path options text store) :
    ({ w with store }.putFile f).UpToDate path options text f := by
  refine ⟨hknown, ?_, h⟩
  rw [← h.path_eq]
  exact List.find?_cons_of_pos (beq_self_eq_true _)

/-- Opening a document with a text that its source file has not seen makes the source file anew. -/
theorem openDocument_rebuilds (habsolute : path.isAbsolute = true)
    (hknown : w.config.parseOptions path.normalize = some options)
    (hwrite : w.store.write path.normalize text = .ok (d, written))
    (hstored : w.store.Stored path.normalize text d written)
    (hfile : (w.held? path.normalize).getD { path := path.normalize, options } = f)
    (hpath : f.path = path.normalize) (hoptions : f.options = options)
    (hold : ∀ c ∈ f.codes, c.path.normalize = c.path ∧ c.path ≠ path.normalize)
    (hnew : f.parsedVersion ≠ some d.version) :
    ∃ f' w', w.openDocument path text = (.ok (some f'), w') ∧
      w'.UpToDate path.normalize options text f' ∧ w.store.Keeps f'.codes := by
  have hnormal := Path.normalize_normalize path
  have hplace := Path.isAbsolute_normalize habsolute
  have hupdate := SourceFile.update_overlay hnormal hpath hstored.held
  rw [if_neg hnew] at hupdate
  obtain ⟨f', store, hrebuild, hfresh, hkeeps⟩ := SourceFile.rebuild_overlay hplace hnormal
    (f := { f with rebuilt := false }) hpath hstored.held hold
  rw [hrebuild] at hupdate
  rw [hoptions, hstored.text_eq] at hfresh
  refine ⟨f', _, openDocument_of hknown hwrite hfile hupdate,
    upToDate_putFile hknown hfresh, fun c hc before hbefore htext => hkeeps c hc before ?_ htext⟩
  rw [hstored.frame _ (hfresh.path_ne hplace hnormal hc).2, hbefore]

/-- **Opening a document in an empty workspace** brings its source file up to date. -/
theorem openDocument_upToDate (hempty : w.files = []) (habsolute : path.isAbsolute = true)
    (hknown : w.config.parseOptions path.normalize = some options) (text : Text) :
    ∃ f w', w.openDocument path text = (.ok (some f), w') ∧
      w'.UpToDate path.normalize options text f := by
  obtain ⟨d, written, hwrite, hstored⟩ :=
    w.store.write_absolute (Path.isAbsolute_normalize habsolute) text
  rw [Path.normalize_normalize _] at hstored
  have hnone : w.held? path.normalize = none := by
    rw [held?, hempty]
    rfl
  obtain ⟨f, w', hopen, hdone, -⟩ := openDocument_rebuilds habsolute hknown hwrite hstored
    (f := { path := path.normalize, options }) (by rw [hnone]; rfl) rfl rfl
    (fun c hc => absurd hc List.not_mem_nil) (by simp)
  exact ⟨f, w', hopen, hdone⟩

/-- **A change keeps the source file up to date**, and it moves the versions of those generated
documents only whose texts it changes. -/
theorem UpToDate.change (habsolute : path.isAbsolute = true)
    (h : w.UpToDate path.normalize options text f) (text' : Text) :
    ∃ f' w', w.change path text' = (.ok (some f'), w') ∧
      w'.UpToDate path.normalize options text' f' ∧ w.store.Keeps f'.codes := by
  have hnormal := Path.normalize_normalize path
  have hplace := Path.isAbsolute_normalize habsolute
  obtain ⟨d, written, hwrite, hstored⟩ := w.store.write_absolute hplace text'
  rw [hnormal] at hstored
  have hfile : (w.held? path.normalize).getD { path := path.normalize, options } = f := by
    rw [h.held]
    rfl
  obtain ⟨before, hbefore, htext, hparsed⟩ := h.file.parsed
  by_cases hsame : text = text'
  -- nothing has changed, and the source file notices it by the version
  · subst hsame
    obtain rfl := hstored.keeps before hbefore htext
    have hupdate := SourceFile.update_overlay hnormal h.file.path_eq hstored.held
    rw [if_pos hparsed] at hupdate
    have hheld (c : VirtualCode) (hc : c ∈ f.codes) : written.held? c.path = some c.document :=
      (hstored.frame _ (h.file.path_ne hplace hnormal hc).2).trans (h.file.held c hc)
    have hdone : { f with rebuilt := false }.UpToDate path.normalize options text written :=
      ⟨h.file.path_eq, h.file.options_eq, ⟨d, hstored.held, htext, hparsed⟩, h.file.holds, hheld⟩
    refine ⟨_, _, openDocument_of h.known hwrite hfile hupdate,
      upToDate_putFile h.known hdone, fun c hc before hbefore _ => ?_⟩
    exact Option.some.inj ((h.file.held c hc).symm.trans hbefore)
  · refine openDocument_rebuilds habsolute h.known hwrite hstored hfile h.file.path_eq
      h.file.options_eq (fun c hc => h.file.path_ne hplace hnormal hc) ?_
    rw [hparsed]
    exact fun heq => hstored.moves before hbefore (htext ▸ hsame) (Option.some.inj heq).symm

end Workspace

end HybridMarkup
