/-
What an update can do.

An update reads the stored document and then does one of four things (`SourceFile.Outcome`). If
there is no document, or only the version that was parsed last, nothing happens. Otherwise the
document is parsed and what it gives is written, which may fail on the way and leaves the source
file as it was, or succeeds, and then the file holds what the document gives (`Reflects`) and
the generated documents that have gone out of use are removed.

This has little to do with the store at hand. Of a store it is asked that a write and a removal
concern their own place, and that the version moves unless the document stays
(`VersionedFileStore`). Then an update leaves the document itself alone, since nothing is generated
in its place (`read?_update`).
-/
import HybridMarkup.Proofs.KeptVersions

set_option autoImplicit false

namespace HybridMarkup

/-! ## Stores that keep versions -/

/-- A store in which a document is found under every spelling of its path. A write puts a document
there, which is the one that was there before or has a greater version. A removal takes away
what is there, and changes nothing if it finds nothing. -/
class VersionedFileStore (σ : Type) [FileStore σ] : Prop extends LawfulFileStore σ where
  read?_write : ∀ {store store' : σ} {path : Path} {text : Text} {document : Document},
    FileStore.write store path text = .ok (document, store') → ∀ q : Path,
      FileStore.read? store' q =
        if q.normalize = path.normalize then some document else FileStore.read? store q
  version_write : ∀ {store store' : σ} {path q : Path} {text : Text} {document before : Document},
    FileStore.write store path text = .ok (document, store') → q.normalize = path.normalize →
      FileStore.read? store q = some before →
        document = before ∨ before.version < document.version
  read?_remove : ∀ {store : σ} {path q : Path},
    q.normalize ≠ path.normalize ∨ (FileStore.remove store path).1 = false →
      FileStore.read? (FileStore.remove store path).2 q = FileStore.read? store q

namespace Overlay

variable {o o' : Overlay} {path q : Path} {text : Text} {d : Document}

/-- What is read depends on the normal form of the path, in memory and on the disk. -/
theorem read?_eq (o : Overlay) (q : Path) :
    o.read? q = (o.held? q.normalize).or
      ((o.disk.read? q.normalize).map fun text => ⟨q.normalize, 0, text⟩) := by
  unfold read?
  dsimp only
  split
  · next hheld => rw [hheld, Option.some_or]
  · next hheld => rw [hheld, Option.none_or]

theorem held?_remove (o : Overlay) (path q : Path) :
    (o.remove path).2.held? q = if q = path.normalize then none else o.held? q :=
  held?_drop o path.normalize q

instance : VersionedFileStore Overlay where
  read?_write {o o' path text d} h q := by
    have hwritten := written_of_write h
    change o'.read? q = if _ then _ else o.read? q
    rw [read?_eq, read?_eq, hwritten.disk_eq, hwritten.held?_eq]
    split
    · rfl
    · rfl
  version_write {o o' path q text d before} h hplace hbefore := by
    have hwritten := written_of_write h
    change o.read? q = some before at hbefore
    rw [read?_eq, hplace] at hbefore
    cases hheld : o.held? path.normalize with
    | some held =>
      rw [hheld, Option.some_or] at hbefore
      exact hwritten.version_le (hheld.trans hbefore)
    | none =>
      -- what is only on the disk has version 0
      rw [hheld, Option.none_or] at hbefore
      obtain ⟨_, _, rfl⟩ := Option.map_eq_some_iff.1 hbefore
      cases hwritten with
      | kept hsome => simp [hheld] at hsome
      | replaced hsome => simp [hheld] at hsome
      | first => exact .inr Nat.one_pos
  read?_remove {o path q} h := by
    change (o.remove path).2.read? q = o.read? q
    rw [read?_eq, read?_eq, held?_remove]
    split
    · next heq =>
      rcases h with hne | hfound
      · exact absurd heq hne
      · change (o.held? path.normalize).isSome = false at hfound
        rw [Option.isSome_eq_false_iff, Option.isNone_iff_eq_none] at hfound
        rw [heq, hfound]
        rfl
    · rfl

end Overlay

instance : VersionedFileStore GuardedOverlay where
  read?_write h q := VersionedFileStore.read?_write (σ := Overlay) (GuardedOverlay.write_ok h) q
  version_write h hplace hbefore :=
    VersionedFileStore.version_write (σ := Overlay) (GuardedOverlay.write_ok h) hplace hbefore
  read?_remove h := VersionedFileStore.read?_remove (σ := Overlay) h

/-! ## The outcomes of an update -/

namespace SourceFile

section

variable {σ : Type} [FileStore σ]

/-- The artifacts of a text. -/
def artifactsOf (f : SourceFile) (text : Text) : List Artifact :=
  (Parse.ofText f.options text).tree.artifacts f.path.spelling

/-- The source file once a document is parsed and its artifacts are stored. -/
def built (f : SourceFile) (d : Document) (codes : List VirtualCode) : SourceFile :=
  { f with
    parsedVersion := some d.version
    rebuilt := true
    parse := some (Parse.ofText f.options d.text)
    codes }

/-- The source file but for the note whether the last update parsed anything. -/
def unmarked (f : SourceFile) : SourceFile := { f with rebuilt := false }

theorem unmarked_eq_iff {f f' : SourceFile} :
    f'.unmarked = f.unmarked ↔ f'.path = f.path ∧ f'.options = f.options ∧
      f'.parsedVersion = f.parsedVersion ∧ f'.parse = f.parse ∧ f'.codes = f.codes := by
  simp [unmarked]

/-- What an update can come to. -/
inductive Outcome (f : SourceFile) (store : σ) : Except StoreError Bool → SourceFile → σ → Prop
  | gone (hread : FileStore.read? store f.path = none) :
      Outcome f store (.ok false) f.unmarked store
  | seen {d : Document} (hread : FileStore.read? store f.path = some d)
      (hversion : f.parsedVersion = some d.version) :
      Outcome f store (.ok false) f.unmarked store
  | failed {d : Document} {e : StoreError} {store' : σ}
      (hread : FileStore.read? store f.path = some d)
      (hversion : f.parsedVersion ≠ some d.version)
      (hwrite : writeArtifacts f.path (f.artifactsOf d.text) store = (.error e, store')) :
      Outcome f store (.error e) f.unmarked store'
  | rebuilt {d : Document} {codes : List VirtualCode} {written : σ}
      (hread : FileStore.read? store f.path = some d)
      (hversion : f.parsedVersion ≠ some d.version)
      (hwrite : writeArtifacts f.path (f.artifactsOf d.text) store = (.ok codes, written)) :
      Outcome f store (.ok true) (f.built d codes) (removeStale f.codes codes written)

/-- **Every update comes to one of the outcomes.** -/
theorem outcome (f : SourceFile) (store : σ) :
    Outcome f store (f.update store).1 (f.update store).2.1 (f.update store).2.2 := by
  unfold update
  dsimp only
  split
  · next hread => exact .gone hread
  · next d hread =>
    split
    · next hversion => exact .seen hread hversion
    · next hversion =>
      unfold rebuild
      dsimp only
      split
      · next e store' hwrite => exact .failed hread hversion hwrite
      · next codes written hwrite => exact .rebuilt hread hversion hwrite

theorem outcome_of_update {f f' : SourceFile} {store store' : σ} {result : Except StoreError Bool}
    (h : f.update store = (result, f', store')) : Outcome f store result f' store' := by
  have houtcome := outcome f store
  rwa [h] at houtcome

end

/-- A source file beside the store that has its document. -/
structure InStore (σ : Type) where
  file : SourceFile
  store : σ

namespace InStore

variable {σ : Type} [FileStore σ]

/-- A source file of which nothing has been parsed. -/
def fresh (path : Path) (options : ParseOptions) (store : σ) : InStore σ :=
  ⟨{ path, options }, store⟩

/-- Brings the file up to date. -/
def update (s : InStore σ) : Except StoreError Bool × InStore σ :=
  ((s.file.update s.store).1, ⟨(s.file.update s.store).2.1, (s.file.update s.store).2.2⟩)

theorem update_outcome {s s' : InStore σ} {result : Except StoreError Bool}
    (h : s.update = (result, s')) : Outcome s.file s.store result s'.file s'.store := by
  obtain ⟨rfl, rfl⟩ := Prod.mk.inj h
  exact outcome s.file s.store

end InStore

/-- The source file of a path holds what a text gives. -/
structure Reflects (f : SourceFile) (path : Path) (options : ParseOptions) (text : Text) :
    Prop where
  path_eq : f.path = path
  options_eq : f.options = options
  parse_eq : f.parse = some (Parse.ofText options text)
  holds : List.Forall₂ (Holds path)
    ((Parse.ofText options text).tree.artifacts path.spelling) f.codes

/-- The places of generated documents are in normal form, and none is that of the source. -/
theorem placed_of_holds {path : Path} {t : Tree} {codes : List VirtualCode}
    (h : List.Forall₂ (Holds path) (t.artifacts path.spelling) codes) {c : VirtualCode}
    (hc : c ∈ codes) : c.path.normalize = c.path ∧ c.path ≠ path.normalize := by
  obtain ⟨a, ha, hholds⟩ := exists_of_holds h hc
  rw [hholds.path_eq]
  exact ⟨Path.normalize_normalize _,
    Tree.artifact_path_ne_normalize (Tree.isAbsolute_of_artifact ha hholds.absolute) ha⟩

theorem Reflects.of_unmarked {f f' : SourceFile} {path : Path} {options : ParseOptions}
    {text : Text} (h : f.Reflects path options text) (heq : f'.unmarked = f.unmarked) :
    f'.Reflects path options text := by
  obtain ⟨hpath, hoptions, -, hparse, hcodes⟩ := unmarked_eq_iff.1 heq
  refine ⟨hpath.trans h.path_eq, hoptions.trans h.options_eq, hparse.trans h.parse_eq, ?_⟩
  rw [hcodes]
  exact h.holds

/-- A source file that has been built reflects the document. -/
theorem reflects_built {σ : Type} [FileStore σ] [LawfulFileStore σ] {f : SourceFile} {d : Document}
    {codes : List VirtualCode} {store written : σ}
    (hwrite : writeArtifacts f.path (f.artifactsOf d.text) store = (.ok codes, written)) :
    (f.built d codes).Reflects f.path f.options d.text :=
  ⟨rfl, rfl, rfl, writeArtifacts_ok hwrite⟩

/-! ## What an update leaves alone -/

section

variable {σ : Type} [FileStore σ] [VersionedFileStore σ]

/-- Artifacts are written in their places only, also if not all of them are. -/
theorem read?_writeArtifacts {source q : Path} {artifacts : List Artifact}
    (hother : ∀ a ∈ artifacts, (⟨a.fileName⟩ : Path).isAbsolute = true → q.normalize ≠ a.path)
    (store : σ) :
    FileStore.read? (writeArtifacts source artifacts store).2 q = FileStore.read? store q := by
  refine writeArtifacts_preserves (P := fun s => FileStore.read? s q = FileStore.read? store q)
    source rfl fun a ha s d s' hsame hwrite => ?_
  have helsewhere := hother a ha (LawfulFileStore.write_ok hwrite).1
  exact (VersionedFileStore.read?_write hwrite q).trans ((if_neg helsewhere).trans hsame)

theorem read?_removeStale {q : Path} {old : List VirtualCode} (new : List VirtualCode)
    (hother : ∀ c ∈ old, q.normalize ≠ c.path.normalize) (store : σ) :
    FileStore.read? (removeStale old new store) q = FileStore.read? store q := by
  unfold removeStale
  refine List.foldlRecOn (motive := fun store' : σ => FileStore.read? store' q
    = FileStore.read? store q) _ _ rfl fun store' h c hc => ?_
  rw [← h]
  exact VersionedFileStore.read?_remove (.inl (hother c (List.mem_filter.1 hc).1))

/-- **An update leaves its document alone.** -/
theorem read?_update (f : SourceFile) (store : σ)
    (hold : ∀ c ∈ f.codes, c.path.normalize = c.path ∧ c.path ≠ f.path.normalize) :
    FileStore.read? (f.update store).2.2 f.path = FileStore.read? store f.path := by
  have hwritten (text : Text) : FileStore.read?
      (writeArtifacts f.path (f.artifactsOf text) store).2 f.path
        = FileStore.read? store f.path :=
    read?_writeArtifacts (fun a ha habsolute =>
      (Tree.artifact_path_ne_normalize (Tree.isAbsolute_of_artifact ha habsolute) ha).symm) store
  rcases hupdate : f.update store with ⟨result, f', store'⟩
  cases outcome_of_update hupdate with
  | gone => rfl
  | seen => rfl
  | failed _ _ hwrite =>
    rw [← hwritten, hwrite]
  | rebuilt _ _ hwrite =>
    rw [read?_removeStale _ fun c hc => ?_, ← hwritten, hwrite]
    obtain ⟨hnormal, hne⟩ := hold c hc
    rw [hnormal]
    exact hne.symm

end

/-! ## Updates in the store of an editor -/

/-- Whatever tree artifacts are of, if they are all written then they are stored. -/
theorem holds_of_writeArtifacts {path : Path} {t : Tree} {o o' : Overlay} {codes : List VirtualCode}
    (hwrite : writeArtifacts path (t.artifacts path.spelling) o = (.ok codes, o')) :
    o.Holds o' codes := by
  have hholds := writeArtifacts_ok hwrite
  by_cases habsolute : path.isAbsolute = true
  · obtain ⟨codes', o'', hwrite', hstored⟩ := writeArtifacts_overlay path
      (fun a ha => Tree.isAbsolute_artifact habsolute ha) (t.artifacts_placed habsolute) o
    rw [hwrite] at hwrite'
    obtain ⟨hcodes, rfl⟩ := Prod.mk.inj hwrite'
    rwa [Except.ok.inj hcodes]
  -- under a relative path nothing can be written
  · cases hlist : t.artifacts path.spelling with
    | nil =>
      rw [hlist] at hwrite
      obtain ⟨hcodes, rfl⟩ := Prod.mk.inj hwrite
      rw [← Except.ok.inj hcodes]
      exact .nil o
    | cons a artifacts =>
      rw [hlist] at hholds
      cases hholds with
      | cons hfirst _ =>
        have hmem : a ∈ t.artifacts path.spelling := hlist ▸ List.mem_cons_self
        exact absurd (Tree.isAbsolute_of_artifact hmem hfirst.absolute) habsolute

end SourceFile

namespace Overlay

/-- The generated documents of a source file are replaced: the new ones are stored, the old ones
that are not among them are gone, and nothing else has changed. -/
structure Replaced (o o' : Overlay) (old new : List VirtualCode) : Prop where
  held : ∀ c ∈ new, o'.held? c.path = some c.document
  gone : ∀ c ∈ old, c.path ∉ new.map VirtualCode.path → o'.held? c.path = none
  frame : ∀ q, q ∉ old.map VirtualCode.path → q ∉ new.map VirtualCode.path →
    o'.held? q = o.held? q

/-- Stored documents, behind which those are removed that have gone out of use. -/
theorem Holds.replaced {o written : Overlay} {old new : List VirtualCode}
    (h : o.Holds written new) (hold : ∀ c ∈ old, c.path.normalize = c.path) :
    o.Replaced (SourceFile.removeStale old new written) old new := by
  have hlive (q : Path) (hq : q ∈ new.map VirtualCode.path ∨ q ∉ old.map VirtualCode.path) :
      (SourceFile.removeStale old new written).held? q = written.held? q := by
    rw [held?_removeStale, if_neg]
    rintro ⟨c, hc, hnot, heq⟩
    rw [hold c hc] at heq
    subst heq
    exact hq.elim hnot fun hnone => hnone (List.mem_map_of_mem hc)
  refine ⟨fun c hc => ?_, fun c hc hnot => ?_, fun q hq hq' => ?_⟩
  · rw [hlive _ (.inl (List.mem_map_of_mem hc))]
    exact h.held c hc
  · rw [held?_removeStale, if_pos ⟨c, hc, hnot, hold c hc⟩]
  · rw [hlive q (.inr hq), h.frame q hq']

end Overlay

namespace SourceFile

/-- A document that a source file lists after an update was listed before or is stored now. -/
theorem listed_update {f f' : SourceFile} {o o' : Overlay} {result : Except StoreError Bool}
    (hupdate : f.update o = (result, f', o')) (hold : ∀ c ∈ f.codes, c.path.normalize = c.path)
    {c : VirtualCode} (hc : c ∈ f'.codes) :
    c ∈ f.codes ∨ c.path.normalize = c.path ∧ o'.held? c.path = some c.document := by
  cases outcome_of_update hupdate with
  | gone | seen | failed => exact .inl hc
  | rebuilt _ _ hwrite =>
    exact .inr ⟨(placed_of_holds (writeArtifacts_ok hwrite) hc).1,
      ((holds_of_writeArtifacts hwrite).replaced hold).held c hc⟩

end SourceFile

end HybridMarkup
