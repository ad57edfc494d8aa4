/-
What is left behind by an update that fails, and what the next one makes of it.

An update writes the artifacts of its document in their order, and it ends at the first one that is
refused. By then it has removed nothing and has not touched the source file, so all that is left of
it are the artifacts in front of that one (`exists_of_writeArtifacts_error`).

These do no harm. A text that is stored already stays the document that it has become, so wherever
in the list updates have ended, one after another, the artifacts become the documents that they
would have become at once. The work is in keeping this apart from how often and where it was tried
(`Overlay.Ahead`); then an update in a store where nothing is refused any more is compared with one
in the overlay as it was before all failures (`Behind.update_eq`). Check before trusting the
statement `update_intact` that a store may go by anything when it refuses (`GuardsOverlay`), and may
change its mind between two updates (`Fails`).
-/
import HybridMarkup.Proofs.Rebuilds

set_option autoImplicit false

namespace HybridMarkup

/-! ## Artifacts that are stored in part -/

namespace Overlay

variable {o o' o'' : Overlay} {artifacts done : List Artifact}

/-- Of some artifacts a part is stored already, each as the next document under its path, and
nothing else has changed. -/
structure Ahead (o o' : Overlay) (artifacts : List Artifact) : Prop where
  disk_eq : o'.disk = o.disk
  stored : ∀ a ∈ artifacts,
    o'.held? a.path = o.held? a.path ∨ o'.held? a.path = some (o.next a.path a.text)
  frame : ∀ q, (∀ a ∈ artifacts, a.path ≠ q) → o'.held? q = o.held? q

theorem Ahead.refl (o : Overlay) (artifacts : List Artifact) : o.Ahead o artifacts :=
  ⟨rfl, fun _ _ => .inl rfl, fun _ _ => rfl⟩

/-- **An artifact becomes the same document**, whether it is stored already or not. -/
theorem Ahead.next_eq (h : o.Ahead o' artifacts) {a : Artifact} (ha : a ∈ artifacts) :
    o'.next a.path a.text = o.next a.path a.text := by
  rcases h.stored a ha with hsame | hstored
  · exact next_congr hsame a.text
  · exact next_of_stored hstored

/-- **Storing the first artifacts once more** goes no further than that. -/
theorem Ahead.puts (h : o.Ahead o' artifacts) (hnodup : (artifacts.map Artifact.path).Nodup)
    (hputs : o'.Puts o'' done) (hdone : ∀ a ∈ done, a ∈ artifacts) : o.Ahead o'' artifacts := by
  refine ⟨hputs.disk_eq.trans h.disk_eq, fun a ha => ?_, fun q hq => ?_⟩
  · by_cases hin : a ∈ done
    -- what is stored now is next to what was there, which may have been stored before
    · exact .inr ((hputs.stored a hin).trans (congrArg some (h.next_eq ha)))
    · rw [hputs.frame a.path fun b hb heq => hin ?_]
      · exact h.stored a ha
      · exact List.inj_on_of_nodup_map hnodup (hdone b hb) ha heq ▸ hb
  · rw [hputs.frame q fun a ha => hq a (hdone a ha), h.frame q hq]

/-- Once all artifacts are stored it cannot be told whether some were before. -/
theorem Ahead.held?_eq {written : Overlay} (h : o.Ahead o' artifacts)
    (hputs : o'.Puts o'' artifacts) (hplain : o.Puts written artifacts) (q : Path) :
    o''.held? q = written.held? q := by
  by_cases hq : ∃ a ∈ artifacts, a.path = q
  · obtain ⟨a, ha, rfl⟩ := hq
    rw [hputs.stored a ha, hplain.stored a ha, h.next_eq ha]
  · have hother : ∀ a ∈ artifacts, a.path ≠ q := fun a ha heq => hq ⟨a, ha, heq⟩
    rw [hputs.frame q hother, hplain.frame q hother, h.frame q hother]

/-- Where artifacts are stored nothing goes away. -/
theorem Puts.isSome_held? (h : o.Puts o' done) {q : Path} (hq : (o.held? q).isSome = true) :
    (o'.held? q).isSome = true := by
  by_cases hstored : ∃ a ∈ done, a.path = q
  · obtain ⟨a, ha, rfl⟩ := hstored
    rw [h.stored a ha]
    rfl
  · rw [h.frame q fun a ha heq => hstored ⟨a, ha, heq⟩]
    exact hq

end Overlay

namespace SourceFile

section

variable {σ : Type} [FileStore σ] {source : Path} {artifacts : List Artifact}
  {store store' : σ} {codes : List VirtualCode} {e : StoreError}

/-! ## Where an update ends -/

/-- If not all artifacts are written, one of them was refused, when those in front of it had been
written. -/
theorem exists_of_writeArtifacts_error
    (h : writeArtifacts source artifacts store = (.error e, store')) :
    ∃ done a rest codes, artifacts = done ++ a :: rest ∧
      writeArtifacts source done store = (.ok codes, store') ∧
      FileStore.write store' ⟨a.fileName⟩ a.text = .error e := by
  induction artifacts generalizing store with
  | nil => simp [writeArtifacts] at h
  | cons a artifacts ih =>
    unfold writeArtifacts at h
    dsimp only at h
    split at h
    · next e' hrefused =>
      obtain ⟨he, rfl⟩ := Prod.mk.inj h
      exact ⟨[], a, artifacts, [], rfl, rfl, Except.error.inj he ▸ hrefused⟩
    · next d written hwrite =>
      split at h
      · simp at h
      · next e' store'' hrest =>
        obtain ⟨he, rfl⟩ := Prod.mk.inj h
        obtain rfl := Except.error.inj he
        obtain ⟨done, b, rest, codes, rfl, hdone, hrefused⟩ := ih hrest
        exact ⟨a :: done, b, rest, _, rfl, writeArtifacts_cons hwrite hdone, hrefused⟩

variable [GuardsOverlay σ]

/-- A store in front of an overlay keeps what is written under the normal forms of its paths. -/
theorem lawful_of_guardsOverlay (σ : Type) [FileStore σ] [GuardsOverlay σ] : LawfulFileStore σ :=
  ⟨fun h => Overlay.write_ok (GuardsOverlay.write_ok h)⟩

/-- The first artifacts of a document are stored side by side. Under a relative path there are none
to be stored. -/
theorem puts_of_first {path : Path} {t : Tree} {done rest : List Artifact}
    (hlist : t.artifacts path.spelling = done ++ rest)
    (h : writeArtifacts path done store = (.ok codes, store')) :
    (GuardsOverlay.overlay store).Puts (GuardsOverlay.overlay store') done ∧
      (path.isAbsolute = false → store' = store) := by
  have hlawful := lawful_of_guardsOverlay σ
  by_cases hdone : done = []
  · subst hdone
    obtain ⟨-, rfl⟩ := Prod.mk.inj h
    exact ⟨.nil _, fun _ => rfl⟩
  · have habsolute : path.isAbsolute = true :=
      isAbsolute_of_stored (fun a ha => hlist ▸ List.mem_append_left rest ha) hdone h
    have hnodup := t.artifacts_placed habsolute
    rw [hlist, List.map_append] at hnodup
    refine ⟨(writeArtifacts_puts (List.Nodup.of_append_left hnodup) h).1, fun hrelative => ?_⟩
    rw [habsolute] at hrelative
    contradiction

/-! ## Updates that fail one after another -/

/-- One or more updates fail one after another. In between the store may come to refuse something
else, as long as its documents stay. -/
inductive Fails (f : SourceFile) (store : σ) : SourceFile → σ → Prop
  | once {e : StoreError} {f' : SourceFile} {store' : σ}
      (hupdate : f.update store = (.error e, f', store')) : Fails f store f' store'
  | again {e : StoreError} {f₁ f' : SourceFile} {store₁ before store' : σ}
      (h : Fails f store f₁ store₁)
      (hsame : GuardsOverlay.overlay before = GuardsOverlay.overlay store₁)
      (hupdate : f₁.update before = (.error e, f', store')) : Fails f store f' store'

/-- What a source file and its store are like after failures. -/
structure Behind (f : SourceFile) (o : Overlay) (f' : SourceFile) (o' : Overlay) (d : Document) :
    Prop where
  file_eq : f'.unmarked = f.unmarked
  read : o.read? f.path = some d
  version : f.parsedVersion ≠ some d.version
  ahead : o.Ahead o' (f.artifactsOf d.text)
  relative : f.path.isAbsolute = false → o' = o

variable {f f' : SourceFile} {o o' : Overlay} {d : Document}

/-- The document is read as before, since no artifact is under its path. -/
theorem Behind.read_eq (h : Behind f o f' o' d) : o'.read? f.path = some d := by
  cases habsolute : f.path.isAbsolute with
  | false => rw [h.relative habsolute, h.read]
  | true =>
    rw [Overlay.read?_eq, h.ahead.disk_eq, h.ahead.frame _ fun a ha =>
      Tree.artifact_path_ne_normalize habsolute ha, ← Overlay.read?_eq, h.read]

/-- **One more failure** leaves it at that. -/
theorem Behind.update {before : σ} (h : Behind f o f' (GuardsOverlay.overlay before) d)
    {f'' : SourceFile} (hupdate : f'.update before = (.error e, f'', store')) :
    Behind f o f'' (GuardsOverlay.overlay store') d := by
  obtain ⟨hpath, hoptions, -⟩ := unmarked_eq_iff.1 h.file_eq
  cases outcome_of_update hupdate with
  | @failed d' _ _ hread _ hwrite =>
    -- it is the same document, so the artifacts are the same, of which some first ones are written
    rw [GuardsOverlay.read?_eq, hpath, h.read_eq] at hread
    obtain rfl := Option.some.inj hread
    obtain ⟨done, a, rest, codes, hlist, hdone, -⟩ := exists_of_writeArtifacts_error hwrite
    have hlist' : f.artifactsOf d.text = done ++ a :: rest := by
      rw [← hlist, artifactsOf, artifactsOf, hpath, hoptions]
    rw [hpath] at hdone
    obtain ⟨hputs, hrelative⟩ := puts_of_first hlist' hdone
    refine ⟨h.file_eq, h.read, h.version, ?_, fun hnot => ?_⟩
    · cases habsolute : f.path.isAbsolute with
      | false =>
        rw [hrelative habsolute]
        exact h.ahead
      | true =>
        refine h.ahead.puts (Tree.artifacts_placed _ habsolute) hputs fun b hb => ?_
        rw [hlist']
        exact List.mem_append_left _ hb
    · rw [hrelative hnot, h.relative hnot]

/-- **However often it fails.** -/
theorem Fails.behind (h : Fails f store f' store') :
    ∃ d, Behind f (GuardsOverlay.overlay store) f' (GuardsOverlay.overlay store') d := by
  induction h with
  | @once e f' store' hupdate =>
    obtain ⟨d, hread, hversion⟩ : ∃ d, FileStore.read? store f.path = some d ∧
        f.parsedVersion ≠ some d.version := by
      cases outcome_of_update hupdate with
      | failed hread hversion _ => exact ⟨_, hread, hversion⟩
    rw [GuardsOverlay.read?_eq] at hread
    have hstart : Behind f (GuardsOverlay.overlay store) f (GuardsOverlay.overlay store) d :=
      ⟨rfl, hread, hversion, .refl _ _, fun _ => rfl⟩
    exact ⟨d, hstart.update hupdate⟩
  | again _ hsame hupdate ih =>
    obtain ⟨d, hbehind⟩ := ih
    rw [← hsame] at hbehind
    exact ⟨d, hbehind.update hupdate⟩

/-! ## Stores that refuse nothing -/

/-- From now on the store refuses nothing that its overlay takes: there are states from which
writing does not lead away, in which it writes as the overlay does. -/
def Willing (store : σ) : Prop :=
  ∃ P : σ → Prop, P store ∧ ∀ s, P s → ∀ path text,
    ((FileStore.write s path text).map fun written => (written.1, GuardsOverlay.overlay written.2))
        = (GuardsOverlay.overlay s).write path text ∧
      ∀ d s', FileStore.write s path text = .ok (d, s') → P s'

/-- Artifacts are written as in the overlay. -/
theorem writeArtifacts_willing (source : Path) (artifacts : List Artifact) {store : σ}
    (h : Willing store) :
    writeArtifacts source artifacts (GuardsOverlay.overlay store)
      = ((writeArtifacts source artifacts store).1,
        GuardsOverlay.overlay (writeArtifacts source artifacts store).2) := by
  obtain ⟨P, hP, hwrites⟩ := h
  induction artifacts generalizing store with
  | nil => rfl
  | cons a artifacts ih =>
    obtain ⟨hwrite, hstays⟩ := hwrites store hP ⟨a.fileName⟩ a.text
    change _ = FileStore.write (GuardsOverlay.overlay store) _ _ at hwrite
    rw [writeArtifacts, writeArtifacts, ← hwrite]
    rcases hresult : FileStore.write store ⟨a.fileName⟩ a.text with e | ⟨d, written⟩
    · rfl
    · have hrest := ih (hstays d written hresult)
      dsimp only [Except.map]
      rw [hrest]
      rcases writeArtifacts source artifacts written with ⟨e | codes, store'⟩
      · rfl
      · rfl

theorem removeStale_overlay (old new : List VirtualCode) (store : σ) :
    removeStale old new (GuardsOverlay.overlay store)
      = GuardsOverlay.overlay (removeStale old new store) := by
  unfold removeStale
  refine (List.foldl_hom GuardsOverlay.overlay fun s c => ?_)
  exact congrArg Prod.snd (GuardsOverlay.remove_eq s c.path).symm

/-- **Where nothing is refused** an update is one in the overlay. -/
theorem update_willing (f : SourceFile) {store : σ} (h : Willing store) :
    f.update (GuardsOverlay.overlay store)
      = ((f.update store).1, (f.update store).2.1,
        GuardsOverlay.overlay (f.update store).2.2) := by
  unfold update rebuild
  dsimp only
  rw [show FileStore.read? store f.path = FileStore.read? (GuardsOverlay.overlay store) f.path from
    GuardsOverlay.read?_eq store f.path]
  split
  · rfl
  · next d hread =>
    split
    · rfl
    · rw [writeArtifacts_willing _ _ h]
      rcases writeArtifacts f.path _ store with ⟨e | codes, written⟩
      · rfl
      · dsimp only
        rw [removeStale_overlay]

/-! ## The next update -/

/-- An update that comes to parse its document succeeds under an absolute path, and only there. -/
theorem exists_rebuilt (habsolute : f.path.isAbsolute = true) (hread : o.read? f.path = some d)
    (hversion : f.parsedVersion ≠ some d.version) :
    ∃ written, f.update o = (.ok true, f.built d ((f.artifactsOf d.text).map (o.code f.path)),
        removeStale f.codes ((f.artifactsOf d.text).map (o.code f.path)) written) ∧
      o.Puts written (f.artifactsOf d.text) := by
  rcases hupdate : f.update o with ⟨result, f', o'⟩
  have hother {d' : Document} (hread' : FileStore.read? o f.path = some d') : d' = d :=
    Option.some.inj (hread'.symm.trans hread)
  cases outcome_of_update hupdate with
  | gone hnone => exact absurd (hnone.symm.trans hread) (by simp)
  | seen hread' hseen =>
    obtain rfl := hother hread'
    exact absurd hseen hversion
  | failed hread' _ hwrite =>
    rw [(writeArtifacts_error hwrite).1] at habsolute
    contradiction
  | rebuilt hread' _ hwrite =>
    obtain rfl := hother hread'
    obtain ⟨hputs, rfl⟩ := writeArtifacts_puts (Tree.artifacts_placed _ habsolute) hwrite
    exact ⟨_, rfl, hputs⟩

/-- **The next update makes up for all failures.** -/
theorem Behind.update_eq (h : Behind f o f' o' d) :
    ((f'.update o').1 = .ok true ↔ f.path.isAbsolute = true) ∧
      (f'.update o').1 = (f.update o).1 ∧ (f'.update o').2.1 = (f.update o).2.1 ∧
      (f'.update o').2.2.disk = (f.update o).2.2.disk ∧
      ∀ q, (f'.update o').2.2.held? q = (f.update o).2.2.held? q := by
  -- an update begins by taking back the note of the last one
  have hfile : f'.update o' = f.update o' := by
    change f'.unmarked.update o' = f.unmarked.update o'
    rw [h.file_eq]
  rw [hfile]
  cases habsolute : f.path.isAbsolute with
  | true =>
    obtain ⟨written, hplain, hputs⟩ := exists_rebuilt habsolute h.read h.version
    obtain ⟨written', hretried, hputs'⟩ := exists_rebuilt habsolute h.read_eq h.version
    have hcodes : (f.artifactsOf d.text).map (o'.code f.path)
        = (f.artifactsOf d.text).map (o.code f.path) := by
      refine List.map_congr_left fun a ha => ?_
      rw [Overlay.code, Overlay.code, h.ahead.next_eq ha]
    rw [hretried, hplain, hcodes]
    refine ⟨by simp, rfl, rfl, ?_, fun q => ?_⟩
    · rw [disk_removeStale, disk_removeStale, hputs'.disk_eq, hputs.disk_eq, h.ahead.disk_eq]
    · rw [Overlay.held?_removeStale, Overlay.held?_removeStale, h.ahead.held?_eq hputs' hputs]
  | false =>
    rw [h.relative habsolute]
    refine ⟨iff_of_false (fun hok => ?_) (by simp), rfl, rfl, rfl, fun _ => rfl⟩
    rcases hupdate : f.update o with ⟨result, f'', o''⟩
    rw [hupdate] at hok
    obtain rfl : result = .ok true := hok
    cases outcome_of_update hupdate with
    | rebuilt _ _ hwrite =>
      rw [isAbsolute_of_writeArtifacts hwrite] at habsolute
      contradiction

end

/-- **A failed or a skipped update leaves everything intact.** Take a source file in any state, and
any store that keeps its documents in an overlay and may refuse to write.

If an update fails, then all that has changed in the file is that it notes that nothing was parsed.
One of the artifacts of the document has been refused, those in front of it have been written in
their order, and that is all that has been done to the store: nothing is gone. If an update tells
that it has parsed nothing, then there is the note, and the store is the same.

However often updates fail, and whatever the store refused each time, once it refuses nothing the
next update comes to the same result, the same file and the same documents with the same versions as
an update in the overlay as it was before the first failure. It succeeds, if only the path is
absolute; under a relative path the overlay itself takes nothing. -/
theorem update_intact {σ : Type} [FileStore σ] [GuardsOverlay σ] (f : SourceFile) (store : σ) :
    (∀ e f' store', f.update store = (.error e, f', store') →
      f' = f.unmarked ∧ ∃ d done a rest codes, FileStore.read? store f.path = some d ∧
        f.artifactsOf d.text = done ++ a :: rest ∧
        writeArtifacts f.path done store = (.ok codes, store') ∧
        FileStore.write store' ⟨a.fileName⟩ a.text = .error e ∧
        (GuardsOverlay.overlay store).Puts (GuardsOverlay.overlay store') done ∧
        ∀ q, ((GuardsOverlay.overlay store).held? q).isSome = true →
          ((GuardsOverlay.overlay store').held? q).isSome = true) ∧
    (∀ f' store', f.update store = (.ok false, f', store') → f' = f.unmarked ∧ store' = store) ∧
    ∀ (f' : SourceFile) (failed before : σ), Fails f store f' failed →
      GuardsOverlay.overlay before = GuardsOverlay.overlay failed → Willing before →
        let plain := f.update (GuardsOverlay.overlay store)
        let retried := f'.update before
        (retried.1 = .ok true ↔ f.path.isAbsolute = true) ∧ retried.1 = plain.1 ∧
          retried.2.1 = plain.2.1 ∧
          (GuardsOverlay.overlay retried.2.2).disk = plain.2.2.disk ∧
          ∀ q, (GuardsOverlay.overlay retried.2.2).held? q = plain.2.2.held? q := by
  refine ⟨fun e f' store' hupdate => ?_, fun f' store' hupdate => ?_,
    fun f' failed before hfails hsame hwilling => ?_⟩
  · cases outcome_of_update hupdate with
    | @failed d _ _ hread _ hwrite =>
      obtain ⟨done, a, rest, codes, hlist, hdone, hrefused⟩ :=
        exists_of_writeArtifacts_error hwrite
      obtain ⟨hputs, -⟩ := puts_of_first hlist hdone
      exact ⟨rfl, d, done, a, rest, codes, hread, hlist, hdone, hrefused, hputs,
        fun q => hputs.isSome_held?⟩
  · cases outcome_of_update hupdate with
    | gone | seen => exact ⟨rfl, rfl⟩
  · intro plain retried
    obtain ⟨d, hbehind⟩ := hfails.behind
    have hnext := hbehind.update_eq
    rwa [← hsame, update_willing f' hwilling] at hnext

/-- A store in front of an overlay whose guard lets everything pass refuses nothing. -/
theorem willing_of_refuses {g : GuardedOverlay} (h : ∀ path, g.refuses path = false) :
    Willing g := by
  refine ⟨fun g => ∀ path, g.refuses path = false, h, fun g hg path text => ?_⟩
  have hwrite : FileStore.write g path text = (g.overlay.write path text).map
      fun written => (written.1, { g with overlay := written.2 }) :=
    if_neg (by simp [hg path])
  rw [hwrite]
  change _ = g.overlay.write path text ∧ _
  rcases g.overlay.write path text with e | ⟨d, o⟩
  · exact ⟨rfl, fun d g' hstored => by simp [Except.map] at hstored⟩
  · refine ⟨rfl, fun d' g' hstored => ?_⟩
    obtain ⟨-, rfl⟩ := Prod.mk.inj (Except.ok.inj hstored)
    exact hg

/-- A document with a block, and an older file of a block, in a store that refuses the script. -/
def refusingScript : GuardedOverlay :=
  { overlay :=
      { documents :=
          [⟨.ofString "/p.md", 2, "```ts\na\n```\n".toList⟩,
            ⟨.ofString "/p.md.0._md_cb.ts", 3, "x".toList⟩] }
    refuses := fun p => p == .ofString "/p.md._mdx.jsx" }

/-- The file of the document, of which nothing has been parsed. -/
def ofBlock : SourceFile := { path := .ofString "/p.md", options := { dialect := .markdown } }

/-- An update that the script makes fail. -/
def failedOnce : Except StoreError Bool × SourceFile × GuardedOverlay :=
  ofBlock.update refusingScript

/-- Then the store refuses the prose in place of the script. -/
def refusingProse : GuardedOverlay :=
  { failedOnce.2.2 with refuses := fun p => p == .ofString "/p.md._mdx.md" }

/-- An update that the prose makes fail. -/
def failedTwice : Except StoreError Bool × SourceFile × GuardedOverlay :=
  failedOnce.2.1.update refusingProse

/-- Then the store refuses nothing more. -/
def refusingNothing : GuardedOverlay := { failedTwice.2.2 with refuses := fun _ => false }

/-- An update that succeeds. -/
def retriedAtLast : Except StoreError Bool × SourceFile × GuardedOverlay :=
  failedTwice.2.1.update refusingNothing

/-- An update behind it, which finds nothing to do. -/
def idleBehind : Except StoreError Bool × SourceFile × GuardedOverlay :=
  retriedAtLast.2.1.update retriedAtLast.2.2

/-- The third update does what could have been done at once. The file of the block has one version
more, not three. The fourth one does nothing. -/
theorem update_intact_twice_refused :
    failedOnce.1 = .error (.relativePath (.ofString "/p.md._mdx.jsx")) ∧
      failedOnce.2.1 = ofBlock.unmarked ∧
      failedTwice.1 = .error (.relativePath (.ofString "/p.md._mdx.md")) ∧
      retriedAtLast.1 = .ok true ∧
      retriedAtLast.2.1 = (ofBlock.update refusingScript.overlay).2.1 ∧
      (∀ q, retriedAtLast.2.2.overlay.held? q
        = (ofBlock.update refusingScript.overlay).2.2.held? q) ∧
      (retriedAtLast.2.2.overlay.held? (.ofString "/p.md.0._md_cb.ts")).map Document.version
        = some 4 ∧
      idleBehind.1 = .ok false ∧ idleBehind.2.1 = retriedAtLast.2.1.unmarked := by
  have hfirst : failedOnce.1 = .error (.relativePath (.ofString "/p.md._mdx.jsx")) := by
    decide +kernel
  have hsecond : failedTwice.1 = .error (.relativePath (.ofString "/p.md._mdx.md")) := by
    decide +kernel
  have honce : ofBlock.update refusingScript
      = (.error (.relativePath (.ofString "/p.md._mdx.jsx")), failedOnce.2.1, failedOnce.2.2) := by
    rw [← hfirst]
    rfl
  have htwice : failedOnce.2.1.update refusingProse
      = (.error (.relativePath (.ofString "/p.md._mdx.md")), failedTwice.2.1,
        failedTwice.2.2) := by
    rw [← hsecond]
    rfl
  have hidle : idleBehind.1 = .ok false := by decide +kernel
  have hbehind : retriedAtLast.2.1.update retriedAtLast.2.2
      = (.ok false, idleBehind.2.1, idleBehind.2.2) := by
    rw [← hidle]
    rfl
  have hsame : refusingProse.overlay = failedOnce.2.2.overlay := rfl
  have hfails : Fails ofBlock refusingScript failedTwice.2.1 failedTwice.2.2 :=
    .again (.once honce) hsame htwice
  obtain ⟨hfailed, -, hretried⟩ := update_intact ofBlock refusingScript
  obtain ⟨hok, -, hfile, -, hheld⟩ :=
    hretried _ _ refusingNothing hfails rfl (willing_of_refuses fun _ => rfl)
  obtain ⟨-, hskipped, -⟩ := update_intact retriedAtLast.2.1 retriedAtLast.2.2
  exact ⟨hfirst, (hfailed _ _ _ honce).1, hsecond, hok.2 rfl, hfile, hheld, by decide +kernel,
    hidle, (hskipped _ _ hbehind).1⟩

end SourceFile

end HybridMarkup
