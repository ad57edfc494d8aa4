/-
What is done at one path leaves the others alone.

All documents of a workspace are in one store, those of its user and those that are generated. What
is generated from a document lies under paths that tell of which document it is, so what an action
at one path writes and removes belongs to that path, and no source file of another path notices it,
whatever the history and whichever the paths (`Workspace.isolated`).

The only way to get into each other's way is to open a document in the place of a generated one,
which a workspace does not prevent. Then the two write to one place, and the last one wins
(`Workspace.not_isolated`).
-/
import HybridMarkup.Proofs.Coherence

set_option autoImplicit false

namespace HybridMarkup

/-- **An update changes nothing** but in the places of the generated documents that the file lists
before or afterwards. -/
theorem SourceFile.frame_update {f f' : SourceFile} {o o' : Overlay}
    {result : Except StoreError Bool} (hupdate : f.update o = (result, f', o'))
    (hnormal : ∀ c ∈ f.codes, c.path.normalize = c.path) {q : Path}
    (hold : ∀ c ∈ f.codes, c.path ≠ q) (hnew : ∀ c ∈ f'.codes, c.path ≠ q) :
    o'.held? q = o.held? q := by
  cases outcome_of_update hupdate with
  | gone | seen => rfl
  | failed _ _ hwrite => rw [(writeArtifacts_error hwrite).2]
  | rebuilt _ _ hwrite =>
    exact ((holds_of_writeArtifacts hwrite).replaced hnormal).elsewhere hold hnew

namespace Workspace

variable {w w' : Workspace} {p : Path}

/-! ## Where generated documents are -/

/-- What a source file lists lies at paths that are generated from that of the file. -/
structure FilePlaced (f : SourceFile) : Prop where
  normal : f.path.normalize = f.path
  codes : ∀ c ∈ f.codes, c.path.normalize = c.path ∧ c.path.IsGeneratedFrom f.path

/-- What the source files list lies at paths that are generated from theirs. -/
def Placed (w : Workspace) : Prop := ∀ f ∈ w.files, FilePlaced f

theorem path_fileAt (w : Workspace) (p : Path) (options : ParseOptions) :
    (w.fileAt p options).path = p := by
  unfold fileAt
  cases hheld : w.held? p with
  | none => rfl
  | some f => exact (mem_of_held? hheld).2

theorem Placed.fileAt (h : w.Placed) (hnormal : p.normalize = p) (options : ParseOptions) :
    FilePlaced (w.fileAt p options) := by
  unfold Workspace.fileAt
  cases hheld : w.held? p with
  | none => exact ⟨hnormal, fun c hc => absurd hc List.not_mem_nil⟩
  | some f => exact h f (mem_of_held? hheld).1

theorem FilePlaced.update {f f' : SourceFile} {o o' : Overlay} {result : Except StoreError Bool}
    (h : FilePlaced f) (hupdate : f.update o = (result, f', o')) : FilePlaced f' := by
  cases SourceFile.outcome_of_update hupdate with
  | gone | seen | failed => exact ⟨h.normal, h.codes⟩
  | rebuilt _ _ hwrite =>
    have hreflects := SourceFile.reflects_built hwrite
    refine ⟨h.normal, fun c hc => ⟨(SourceFile.placed_of_holds hreflects.holds hc).1, ?_⟩⟩
    obtain ⟨ending, hending, hpath⟩ := (hreflects.placed h.normal).2 c hc
    exact ⟨c.kind, ending, hending, congrArg Path.spelling hpath⟩

/-! ## What an action touches -/

/-- A generated document of the source file at a path is in a place. -/
def GeneratesAt (w : Workspace) (p q : Path) : Prop :=
  ∃ f ∈ w.held? p, ∃ c ∈ f.codes, c.path = q

instance (w : Workspace) (p q : Path) : Decidable (w.GeneratesAt p q) :=
  inferInstanceAs (Decidable (∃ f ∈ w.held? p, ∃ c ∈ f.codes, c.path = q))

/-- Something that is done at a path touches the source file there, the document, and what is
generated from it before or afterwards. -/
structure Touches (p : Path) (w w' : Workspace) : Prop where
  files : ∀ q, q ≠ p → w'.held? q = w.held? q
  disk : w'.store.disk = w.store.disk
  frame : ∀ q, q ≠ p → ¬ w.GeneratesAt p q → ¬ w'.GeneratesAt p q →
    w'.store.held? q = w.store.held? q
  placed : w'.Placed

theorem Touches.refl (h : w.Placed) (p : Path) : Touches p w w :=
  ⟨fun _ _ => rfl, rfl, fun _ _ _ _ => rfl, h⟩

theorem Updated.touches {result : Except StoreError (Option SourceFile)}
    (h : w.Updated p result w') (hplaced : w.Placed) (hnormal : p.normalize = p) :
    Touches p w w' := by
  cases h with
  | unknown => exact .refl hplaced p
  | @known options made f store hknown hupdate =>
    have hbefore := hplaced.fileAt hnormal options
    have hpath : f.path = p :=
      (SourceFile.path_of_update hupdate).1.trans (w.path_fileAt p options)
    have hheld : ({ w with store }.putFile f).held? p = some f := by
      rw [held?_putFile, if_pos hpath.symm]
    refine ⟨fun q hq => ?_, SourceFile.disk_update hupdate, fun q _ hold hnew => ?_,
      fun g hg => ?_⟩
    · rw [held?_putFile, if_neg (hpath ▸ hq)]
      rfl
    · refine SourceFile.frame_update hupdate (fun c hc => (hbefore.codes c hc).1)
        (fun c hc heq => hold ?_) fun c hc heq => hnew ⟨f, hheld, c, hc, heq⟩
      -- what the update begins with has codes only if it was there before
      unfold Workspace.fileAt at hc
      cases hfile : w.held? p with
      | none =>
        rw [hfile] at hc
        exact absurd hc List.not_mem_nil
      | some g =>
        rw [hfile] at hc
        exact ⟨g, hfile, c, hc, heq⟩
    · rcases mem_putFile hg with rfl | hg
      · exact hbefore.update hupdate
      · exact hplaced g hg

theorem Opened.touches {text : Text} {result : Except StoreError (Option SourceFile)}
    (h : w.Opened p text result w') (hplaced : w.Placed) (hnormal : p.normalize = p) :
    Touches p w w' := by
  cases h with
  | refused => exact .refl hplaced p
  | @stored _ store _ _ hwrite hupdated =>
    have hwritten := Overlay.written_of_write hwrite
    rw [hnormal] at hwritten
    have hafter := hupdated.touches (w := { w with store }) hplaced hnormal
    refine ⟨hafter.files, hafter.disk.trans hwritten.disk_eq, fun q hq hold hnew => ?_,
      hafter.placed⟩
    refine (hafter.frame q hq hold hnew).trans ?_
    rw [hwritten.held?_eq, if_neg hq]

theorem close_touches (hplaced : w.Placed) (path : Path) :
    Touches path.normalize w (w.close path).2 := by
  rw [close_eq]
  refine ⟨fun q hq => ?_, Overlay.disk_removals _ _, fun q hq hold _ => ?_, fun f hf => ?_⟩
  · rw [held?_dropFile, if_neg hq]
    rfl
  · refine (Overlay.held?_removals _ _ q).trans (if_neg fun hclosed => ?_)
    rw [closing, List.map_append, List.mem_append, List.map_singleton, List.mem_singleton,
      Path.normalize_normalize] at hclosed
    rcases hclosed with hclosed | hclosed
    · cases hfile : w.held? path.normalize with
      | none => simp [hfile] at hclosed
      | some f =>
        rw [hfile, Option.map_some, Option.getD_some, List.map_map, List.mem_map] at hclosed
        obtain ⟨c, hc, heq⟩ := hclosed
        have hcode := (hplaced f (mem_of_held? hfile).1).codes c hc
        exact hold ⟨f, hfile, c, hc, hcode.1.symm.trans heq⟩
    · exact hq hclosed
  · exact hplaced f (List.mem_filter.1 hf).1

/-- **One step.** An action touches what belongs to its path. -/
theorem perform_touches (hplaced : w.Placed) (a : Action) :
    Touches a.path.normalize w (w.perform a) := by
  have hnormal := Path.normalize_normalize a.path
  cases a with
  | openDocument path text | change path text => exact (w.opened path text).touches hplaced hnormal
  | update path => exact (w.updated path).touches hplaced hnormal
  | close path => exact close_touches hplaced path

/-- **Every run** keeps generated documents at generated paths. -/
theorem placed_run (config : Config) (disk : Disk) (actions : List Action) :
    ((fresh config disk).run actions).Placed := by
  induction actions using List.reverseRecOn with
  | nil => exact fun f hf => absurd hf List.not_mem_nil
  | append_singleton actions a ih =>
    rw [run_snoc]
    exact (perform_touches ih a).placed

/-! ## Isolation -/

theorem Touches.document?_eq (h : Touches p w w') {q : Path} (hne : q.normalize ≠ p)
    (hold : ¬ w.GeneratesAt p q.normalize) (hnew : ¬ w'.GeneratesAt p q.normalize) :
    w'.document? q = w.document? q := by
  rw [document?, document?, Overlay.read?_eq, Overlay.read?_eq, h.disk, h.frame _ hne hold hnew]

/-- What is generated from one path is not in the place of what is generated from another one. -/
theorem Placed.not_generatesAt (h : w.Placed) {q r : Path} (hr : r.IsGeneratedFrom q)
    (hne : q ≠ p) : ¬ w.GeneratesAt p r := by
  rintro ⟨f, hf, c, hc, rfl⟩
  obtain ⟨hmem, rfl⟩ := mem_of_held? hf
  exact hne (hr.unique ((h f hmem).codes c hc).2)

/-- **Isolation.** Whatever has been done in a workspace that was empty, an action at one path leaves
alone what belongs to another one: its source file altogether, its document, unless that lies where
a document is generated from the path of the action before or afterwards, and the documents that are
generated from it, unless one lies at the path of the action. -/
theorem isolated (config : Config) (disk : Disk) (actions : List Action) (a : Action) (q : Path)
    (hne : q.normalize ≠ a.path.normalize) :
    let w := (fresh config disk).run actions
    let w' := w.perform a
    w'.sourceFile? q = w.sourceFile? q ∧
      (¬ w.GeneratesAt a.path.normalize q.normalize → ¬ w'.GeneratesAt a.path.normalize q.normalize →
        w'.document? q = w.document? q) ∧
      ∀ f, w.sourceFile? q = some f → ∀ c ∈ f.codes, c.path ≠ a.path.normalize →
        w'.document? c.path = w.document? c.path := by
  intro w w'
  have hplaced : w.Placed := placed_run config disk actions
  have htouches : Touches a.path.normalize w w' := perform_touches hplaced a
  refine ⟨htouches.files _ hne, htouches.document?_eq hne, fun f hf c hc hplace => ?_⟩
  obtain ⟨hmem, hpath⟩ := mem_of_held? hf
  obtain ⟨hcode, hgenerated⟩ := (hplaced f hmem).codes c hc
  rw [hpath] at hgenerated
  refine htouches.document?_eq (hcode.symm ▸ hplace) ?_ ?_
  · rw [hcode]
    exact hplaced.not_generatesAt hgenerated hne
  · rw [hcode]
    exact htouches.placed.not_generatesAt hgenerated hne

/-- Two documents are opened, the second one in the place of what is generated from the first. -/
def colliding : List Action :=
  [.openDocument (.ofString "/p.md") ['a'], .openDocument (.ofString "/p.md._mdx.md") ['x']]

/-- Changing a document beside them leaves the first one alone, with its source file and what is
generated from it in other places. -/
theorem isolated_colliding :
    let w := (fresh {} {}).run colliding
    let w' := w.perform (.change (.ofString "/d/../q.md") ['b'])
    let p := Path.ofString "/p.md"
    w'.sourceFile? p = w.sourceFile? p ∧ w'.document? p = w.document? p ∧
      ∀ f, w.sourceFile? p = some f → ∀ c ∈ f.codes, c.path ≠ .ofString "/q.md" →
        w'.document? c.path = w.document? c.path := by
  intro w w' p
  obtain ⟨hfile, hdocument, hgenerated⟩ := isolated {} {} colliding
    (.change (.ofString "/d/../q.md") ['b']) p (by decide)
  exact ⟨hfile, hdocument (by decide +kernel) (by decide +kernel), hgenerated⟩

/-- **What is not isolated.** Two documents are open, and the second one lies where a document is
generated from the first one. When the first one is changed the second one is changed, when the first
one is closed the second one is gone, and a change of the second one changes what is generated from
the first one. -/
theorem not_isolated :
    let w := (fresh {} {}).run colliding
    let p := Path.ofString "/p.md"
    let q := Path.ofString "/p.md._mdx.md"
    (fresh {} {}).IsOpen colliding p ∧ (fresh {} {}).IsOpen colliding q ∧
      q.normalize ≠ p.normalize ∧ w.GeneratesAt p q ∧ w.document? q = some ⟨q, 2, ['x']⟩ ∧
      (w.perform (.change p ['b'])).document? q = some ⟨q, 3, ['b', '\n', '\n']⟩ ∧
      (w.perform (.close p)).document? q = none ∧
      (w.perform (.change q ['y'])).document? q = some ⟨q, 3, ['y']⟩ := by
  intro w p q
  have hopened {w : Workspace} {path : Path} {text : Text}
      (h : (w.openDocument path text).1.isOk = true) :
      w.Opens path.normalize (.openDocument path text) := by
    cases hresult : (w.openDocument path text).1 with
    | error e => simp [hresult, Except.isOk, Except.toBool] at h
    | ok f? => exact ⟨rfl, f?, hresult⟩
  have hp : (fresh {} {}).IsOpen colliding p :=
    ⟨[], _, _, rfl, hopened (by decide +kernel), fun b hb => by
      rw [List.mem_singleton.1 hb]
      exact id⟩
  have hq : (fresh {} {}).IsOpen colliding q :=
    ⟨[_], _, [], rfl, hopened (by decide +kernel), fun b hb => absurd hb List.not_mem_nil⟩
  exact ⟨hp, hq, by decide +kernel⟩

end Workspace

end HybridMarkup
