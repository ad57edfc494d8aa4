/-
What an update that parses a document does to the store.

Artifacts are written one after another, but each under a path of its own, so what stands under such
a path afterwards depends on the artifact and on what was there before, and not on the others
(`Overlay.next`): a document that has the text stays, one with another text is followed by its next
version, and where there is none the versions begin at 1. The one lemma about the loop is
`writeArtifacts_puts`; it is stated for every store that keeps its documents in an overlay, whether
or not it refuses to write (`GuardsOverlay`).

Behind the artifacts the documents go that were listed and are generated no more. A source file, in
whatever store it has been updated so far, lists documents only under paths in normal form that are
not its own (`Reached.placed`). So the removals hit nothing else, least of all the document itself,
and the whole effect of the update is known (`update_renews`).
-/
import HybridMarkup.Proofs.Places

set_option autoImplicit false

namespace HybridMarkup

namespace Overlay

variable {o o' : Overlay} {path q : Path} {text : Text} {d : Document}

/-! ## The next document under a path -/

/-- The document that a text becomes under a path in normal form. -/
def next (o : Overlay) (path : Path) (text : Text) : Document :=
  match o.held? path with
  | some d => if d.text = text then d else ⟨path, d.version + 1, text⟩
  | none => ⟨path, 1, text⟩

theorem next_kept (hheld : o.held? path = some d) (htext : d.text = text) :
    o.next path text = d := by
  rw [next, hheld]
  exact if_pos htext

theorem next_moved (hheld : o.held? path = some d) (htext : d.text ≠ text) :
    o.next path text = ⟨path, d.version + 1, text⟩ := by
  rw [next, hheld]
  exact if_neg htext

theorem next_first (hheld : o.held? path = none) : o.next path text = ⟨path, 1, text⟩ := by
  rw [next, hheld]

theorem next_congr (h : o'.held? path = o.held? path) (text : Text) :
    o'.next path text = o.next path text := by
  rw [next, next, h]

theorem Written.eq_next (h : o.Written path text d o') : d = o.next path text := by
  cases h with
  | kept hheld htext => exact (next_kept hheld htext).symm
  | replaced hheld htext => exact (next_moved hheld htext).symm
  | first hheld => exact (next_first hheld).symm

theorem text_next (o : Overlay) (path : Path) (text : Text) : (o.next path text).text = text := by
  unfold next
  split
  · split
    · next htext => exact htext
    · rfl
  · rfl

/-- A text that is stored already stays the document that it has become. -/
theorem next_of_stored (h : o'.held? path = some (o.next path text)) :
    o'.next path text = o.next path text :=
  next_kept h (o.text_next path text)

/-- The code of an artifact that is stored next. -/
def code (o : Overlay) (source : Path) (a : Artifact) : VirtualCode :=
  { kind := a.kind
    document := o.next a.path a.text
    sourcePath := source
    mappedPath := ⟨a.fileName⟩
    sourceMap := ⟨a.mappings⟩ }

/-- Artifacts are stored, each as the next document under its path, and nothing else has changed. -/
structure Puts (o o' : Overlay) (artifacts : List Artifact) : Prop where
  disk_eq : o'.disk = o.disk
  stored : ∀ a ∈ artifacts, o'.held? a.path = some (o.next a.path a.text)
  frame : ∀ q, (∀ a ∈ artifacts, a.path ≠ q) → o'.held? q = o.held? q

theorem Puts.nil (o : Overlay) : o.Puts o [] :=
  ⟨rfl, fun _ ha => absurd ha List.not_mem_nil, fun _ _ => rfl⟩

/-- One artifact more is stored before the others. -/
theorem Puts.cons {written : Overlay} {a : Artifact} {artifacts : List Artifact}
    (hwritten : o.Written a.path a.text d written) (h : written.Puts o' artifacts)
    (hfresh : a.path ∉ artifacts.map Artifact.path) : o.Puts o' (a :: artifacts) := by
  -- none of the others is written over the first one
  have hother : ∀ b ∈ artifacts, b.path ≠ a.path := fun b hb heq =>
    hfresh (heq ▸ List.mem_map_of_mem hb)
  refine ⟨h.disk_eq.trans hwritten.disk_eq, fun b hb => ?_, fun q hq => ?_⟩
  · rcases List.mem_cons.1 hb with rfl | hb
    · rw [h.frame b.path hother, hwritten.held?_eq, if_pos rfl, hwritten.eq_next]
    · rw [h.stored b hb]
      refine congrArg some (next_congr ?_ b.text)
      rw [hwritten.held?_eq, if_neg (hother b hb)]
  · obtain ⟨hfirst, hrest⟩ := List.forall_mem_cons.1 hq
    rw [h.frame q hrest, hwritten.held?_eq, if_neg hfirst.symm]

end Overlay

/-! ## Stores in front of an overlay -/

/-- A store that keeps its documents in an overlay. It reads and removes as the overlay does, and
what it writes is written there; but it may refuse to write, for whatever reason. -/
class GuardsOverlay (σ : Type) [FileStore σ] where
  overlay : σ → Overlay
  read?_eq : ∀ (store : σ) (path : Path), FileStore.read? store path = (overlay store).read? path
  write_ok : ∀ {store store' : σ} {path : Path} {text : Text} {d : Document},
    FileStore.write store path text = .ok (d, store') →
      (overlay store).write path text = .ok (d, overlay store')
  remove_eq : ∀ (store : σ) (path : Path),
    ((FileStore.remove store path).1, overlay (FileStore.remove store path).2)
      = (overlay store).remove path

instance : GuardsOverlay Overlay where
  overlay o := o
  read?_eq _ _ := rfl
  write_ok h := h
  remove_eq _ _ := rfl

instance : GuardsOverlay GuardedOverlay where
  overlay g := g.overlay
  read?_eq _ _ := rfl
  write_ok h := GuardedOverlay.write_ok h
  remove_eq _ _ := rfl

namespace SourceFile

section

variable {σ : Type} [FileStore σ] {source : Path} {artifacts : List Artifact}
  {store store' : σ} {codes : List VirtualCode}

/-- **Artifacts with different paths are stored side by side.** -/
theorem writeArtifacts_puts [GuardsOverlay σ] (hnodup : (artifacts.map Artifact.path).Nodup)
    (h : writeArtifacts source artifacts store = (.ok codes, store')) :
    (GuardsOverlay.overlay store).Puts (GuardsOverlay.overlay store') artifacts ∧
      codes = artifacts.map ((GuardsOverlay.overlay store).code source) := by
  induction artifacts generalizing store codes with
  | nil =>
    obtain ⟨hcodes, rfl⟩ := Prod.mk.inj h
    exact ⟨.nil _, (Except.ok.inj hcodes).symm⟩
  | cons a artifacts ih =>
    obtain ⟨hfresh, hnodup⟩ := List.nodup_cons.1 hnodup
    obtain ⟨d, written, rest, hwrite, hrest, rfl⟩ := exists_of_writeArtifacts_cons h
    obtain ⟨hputs, rfl⟩ := ih hnodup hrest
    have hwritten : (GuardsOverlay.overlay store).Written a.path a.text d
        (GuardsOverlay.overlay written) :=
      Overlay.written_of_write (GuardsOverlay.write_ok hwrite)
    refine ⟨.cons hwritten hputs hfresh, ?_⟩
    rw [List.map_cons, Overlay.code, ← hwritten.eq_next]
    refine congrArg _ (List.map_congr_left fun b hb => ?_)
    -- the first one is elsewhere
    have hne : b.path ≠ a.path := fun heq => hfresh (heq ▸ List.mem_map_of_mem hb)
    have hheld : (GuardsOverlay.overlay written).held? b.path
        = (GuardsOverlay.overlay store).held? b.path := by
      rw [hwritten.held?_eq, if_neg hne]
    rw [Overlay.code, Overlay.code, Overlay.next_congr hheld]

end

/-! ## Source files as they come to be -/

/-- A source file comes to be by updates, in whatever stores. -/
inductive Reached : SourceFile → Prop
  | new (path : Path) (options : ParseOptions) : Reached { path, options }
  | update {σ : Type} [FileStore σ] [LawfulFileStore σ] {f : SourceFile} (h : Reached f)
      (store : σ) : Reached (f.update store).2.1

/-- **What a source file lists** is under paths in normal form, and not under its own. -/
theorem Reached.placed {f : SourceFile} (h : f.Reached) :
    ∀ c ∈ f.codes, c.path.normalize = c.path ∧ c.path ≠ f.path.normalize := by
  induction h with
  | new path options => exact fun c hc => absurd hc List.not_mem_nil
  | @update σ _ _ f _ store ih =>
    rcases hupdate : f.update store with ⟨result, f', store'⟩
    cases outcome_of_update hupdate with
    | gone | seen | failed => exact ih
    | rebuilt _ _ hwrite => exact fun c hc => placed_of_holds (writeArtifacts_ok hwrite) hc

section

variable {σ : Type} [FileStore σ] [LawfulFileStore σ] {path : Path} {t : Tree}
  {artifacts : List Artifact} {store store' : σ} {codes : List VirtualCode}

/-- Only under an absolute path can any artifact of a document be stored, -/
theorem isAbsolute_of_stored (hof : ∀ a ∈ artifacts, a ∈ t.artifacts path.spelling)
    (hne : artifacts ≠ [])
    (h : writeArtifacts path artifacts store = (.ok codes, store')) : path.isAbsolute = true := by
  have hholds := writeArtifacts_ok h
  cases artifacts with
  | nil => exact absurd rfl hne
  | cons a artifacts =>
    cases hholds with
    | cons hfirst _ =>
      exact Tree.isAbsolute_of_artifact (hof a List.mem_cons_self) hfirst.absolute

/-- and there is always one. -/
theorem isAbsolute_of_writeArtifacts
    (h : writeArtifacts path (t.artifacts path.spelling) store = (.ok codes, store')) :
    path.isAbsolute = true :=
  isAbsolute_of_stored (fun _ ha => ha) (t.artifacts_ne_nil _) h

end

end SourceFile

/-! ## The effect of an update -/

/-- What the artifacts of a document, stored instead of the old ones, change in the store. -/
structure Overlay.Renewed (o o' : Overlay) (source : Path) (artifacts : List Artifact)
    (old : List VirtualCode) : Prop where
  /-- A document that has the text stays the very same. -/
  kept : ∀ a ∈ artifacts, ∀ d, o.held? a.path = some d → d.text = a.text →
    o'.held? a.path = some d
  /-- A document with another text is followed by the next version. -/
  moved : ∀ a ∈ artifacts, ∀ d, o.held? a.path = some d → d.text ≠ a.text →
    o'.held? a.path = some ⟨a.path, d.version + 1, a.text⟩
  /-- Where there was none the versions begin. -/
  first : ∀ a ∈ artifacts, o.held? a.path = none → o'.held? a.path = some ⟨a.path, 1, a.text⟩
  /-- An old document that is generated no more is gone. -/
  gone : ∀ c ∈ old, (∀ a ∈ artifacts, a.path ≠ c.path) → o'.held? c.path = none
  /-- Nothing else has changed, -/
  frame : ∀ q, (∀ a ∈ artifacts, a.path ≠ q) → (∀ c ∈ old, c.path ≠ q) →
    o'.held? q = o.held? q
  /-- not the document itself, -/
  source : o'.held? source.normalize = o.held? source.normalize
  /-- and not the disk. -/
  disk_eq : o'.disk = o.disk

/-- Stored artifacts, behind which the old documents are removed that are generated no more. -/
theorem Overlay.Puts.renewed {o written : Overlay} {source : Path} {artifacts : List Artifact}
    {old new : List VirtualCode} (h : o.Puts written artifacts)
    (hnew : new.map VirtualCode.path = artifacts.map Artifact.path)
    (hold : ∀ c ∈ old, c.path.normalize = c.path ∧ c.path ≠ source.normalize)
    (hsource : ∀ a ∈ artifacts, a.path ≠ source.normalize) :
    o.Renewed (SourceFile.removeStale old new written) source artifacts old := by
  have hlisted (q : Path) : q ∈ new.map VirtualCode.path ↔ ∃ a ∈ artifacts, a.path = q := by
    rw [hnew, List.mem_map]
  -- what is removed was listed, and no artifact is under its path
  have hstays (q : Path) (hq : (∃ a ∈ artifacts, a.path = q) ∨ ∀ c ∈ old, c.path ≠ q) :
      (SourceFile.removeStale old new written).held? q = written.held? q := by
    rw [held?_removeStale, if_neg]
    rintro ⟨c, hc, hnot, heq⟩
    rw [(hold c hc).1] at heq
    subst heq
    exact hq.elim (fun hgenerated => hnot ((hlisted _).2 hgenerated)) fun hother => hother c hc rfl
  have hstored (a : Artifact) (ha : a ∈ artifacts) :
      (SourceFile.removeStale old new written).held? a.path = some (o.next a.path a.text) := by
    rw [hstays a.path (.inl ⟨a, ha, rfl⟩), h.stored a ha]
  have hframe (q : Path) (hq : ∀ a ∈ artifacts, a.path ≠ q) (hq' : ∀ c ∈ old, c.path ≠ q) :
      (SourceFile.removeStale old new written).held? q = o.held? q := by
    rw [hstays q (.inr hq'), h.frame q hq]
  refine ⟨fun a ha d hd htext => ?_, fun a ha d hd htext => ?_, fun a ha hnone => ?_,
    fun c hc hnot => ?_, hframe, hframe _ hsource fun c hc => (hold c hc).2, ?_⟩
  · rw [hstored a ha, next_kept hd htext]
  · rw [hstored a ha, next_moved hd htext]
  · rw [hstored a ha, next_first hnone]
  · refine (held?_removeStale old new written c.path).trans ?_
    refine if_pos ⟨c, hc, fun hin => ?_, (hold c hc).1⟩
    obtain ⟨a, ha, heq⟩ := (hlisted _).1 hin
    exact hnot a ha heq
  · rw [SourceFile.disk_removeStale, h.disk_eq]

/-- **A version more** is all that a document can get. -/
theorem Overlay.Renewed.version_lt {o o' : Overlay} {source : Path} {artifacts : List Artifact}
    {old : List VirtualCode} (h : o.Renewed o' source artifacts old) {limit : Nat}
    (hfirst : 1 < limit) (hroom : ∀ q d, o.held? q = some d → d.version + 1 < limit) :
    ∀ q d, o'.held? q = some d → d.version < limit := by
  intro q d hd
  by_cases hnew : ∃ a ∈ artifacts, a.path = q
  · obtain ⟨a, ha, rfl⟩ := hnew
    cases hheld : o.held? a.path with
    | none =>
      obtain rfl := Option.some.inj ((h.first a ha hheld).symm.trans hd)
      exact hfirst
    | some before =>
      have hbefore := hroom a.path before hheld
      by_cases htext : before.text = a.text
      · obtain rfl := Option.some.inj ((h.kept a ha before hheld htext).symm.trans hd)
        omega
      · obtain rfl := Option.some.inj ((h.moved a ha before hheld htext).symm.trans hd)
        exact hbefore
  · have hother : ∀ a ∈ artifacts, a.path ≠ q := fun a ha heq => hnew ⟨a, ha, heq⟩
    by_cases hold : ∃ c ∈ old, c.path = q
    · obtain ⟨c, hc, rfl⟩ := hold
      rw [h.gone c hc hother] at hd
      contradiction
    · rw [h.frame q hother fun c hc heq => hold ⟨c, hc, heq⟩] at hd
      have hbefore := hroom q d hd
      omega

namespace SourceFile

/-- **The effect of an update.** If an update of a source file, wherever it has been updated before,
parses the document in an overlay, whatever that holds, then the overlay differs afterwards under
the paths of the artifacts of the document and of the documents listed before only. Under the path
of each artifact there is its text: the document that was there if it has this text, or else one
with the next version, or with version 1 if there was none. What was listed before and is generated
no more is gone, and the document itself is as it was. If a counter of 32 bits has room for one
version more of every document that there was, it has room for all versions afterwards. -/
theorem update_renews {f f' : SourceFile} {o o' : Overlay} (hreached : f.Reached)
    (hupdate : f.update o = (.ok true, f', o')) :
    ∃ d, o.read? f.path = some d ∧ o'.read? f.path = some d ∧
      o.Renewed o' f.path (f.artifactsOf d.text) f.codes ∧
      f'.codes = (f.artifactsOf d.text).map (o.code f.path) ∧
      ((∀ q before, o.held? q = some before → before.version + 1 < Document.versionLimit) →
        ∀ q after, o'.held? q = some after → after.version < Document.versionLimit) := by
  cases outcome_of_update hupdate with
  | @rebuilt d codes written hread _ hwrite =>
    have habsolute := isAbsolute_of_writeArtifacts hwrite
    obtain ⟨hputs, hcodes⟩ : o.Puts written (f.artifactsOf d.text) ∧
        codes = (f.artifactsOf d.text).map (o.code f.path) :=
      writeArtifacts_puts (Tree.artifacts_placed _ habsolute) hwrite
    have hrenewed := hputs.renewed (paths_of_holds (writeArtifacts_ok hwrite)) hreached.placed
      fun a ha => Tree.artifact_path_ne_normalize habsolute ha
    refine ⟨d, hread, ?_, hrenewed, hcodes, hrenewed.version_lt (by decide)⟩
    rw [Overlay.read?_eq, hrenewed.source, hrenewed.disk_eq, ← Overlay.read?_eq]
    exact hread

/-- The file of a document with two blocks. -/
def ofTwoBlocks : SourceFile :=
  ({ path := .ofString "/p.md", options := { dialect := .markdown } } : SourceFile).update
    ({ documents := [⟨.ofString "/p.md", 1, "```ts\na\n```\n\n```ts\nb\n```\n".toList⟩] } :
      Overlay) |>.2.1

/-- Another store, in which the document has one block, and there are files under the paths of two
blocks already. -/
def withOneBlock : Overlay :=
  { documents :=
      [⟨.ofString "/p.md", 4, "```ts\nc\n```\n".toList⟩,
        ⟨.ofString "/p.md.0._md_cb.ts", 5, "x".toList⟩,
        ⟨.ofString "/p.md.1._md_cb.ts", 7, "y".toList⟩] }

/-- The file of the first block gets its next version, and that of the second one is gone. -/
theorem update_renews_blocks :
    ofTwoBlocks.Reached ∧ (ofTwoBlocks.update withOneBlock).1 = .ok true ∧
      (∃ d, withOneBlock.read? ofTwoBlocks.path = some d ∧
        (ofTwoBlocks.update withOneBlock).2.2.read? ofTwoBlocks.path = some d ∧
        withOneBlock.Renewed (ofTwoBlocks.update withOneBlock).2.2 ofTwoBlocks.path
          (ofTwoBlocks.artifactsOf d.text) ofTwoBlocks.codes) ∧
      ((ofTwoBlocks.update withOneBlock).2.2.held? (.ofString "/p.md.0._md_cb.ts")).map
        Document.version = some 6 ∧
      (ofTwoBlocks.update withOneBlock).2.2.held? (.ofString "/p.md.1._md_cb.ts") = none := by
  have hreached : ofTwoBlocks.Reached := .update (.new _ _) _
  have hok : (ofTwoBlocks.update withOneBlock).1 = .ok true := by decide +kernel
  have hupdate : ofTwoBlocks.update withOneBlock
      = (.ok true, (ofTwoBlocks.update withOneBlock).2.1,
        (ofTwoBlocks.update withOneBlock).2.2) := by rw [← hok]
  obtain ⟨d, hd, hd', hrenewed, -⟩ := update_renews hreached hupdate
  exact ⟨hreached, hok, ⟨d, hd, hd', hrenewed⟩, by decide +kernel, by decide +kernel⟩

end SourceFile

end HybridMarkup
