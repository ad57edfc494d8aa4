/-
What becomes of documents that nobody lists any more.

An update writes the generated documents one after another, and when all are written it removes
those that the file has listed before and lists no more. If a write is refused, the documents in
front of it have been written, but the list stays as it was. So the next update does not know of
them: what it does not write again stays in the store for ever (`orphan_of_refused_write`).

To say who has written what, the store notes it (`Noted`). Whatever else happens to the store
in the meantime, a place under which updates have written and which has not been cleared is either
the path of a document that the file lists, or an update has failed that wrote there, and the file
has not listed it since (`written_listed_or_spilled`).
-/
import HybridMarkup.Proofs.Updates
import Mathlib.Data.List.Induction

set_option autoImplicit false

namespace HybridMarkup

/-! ## A store that notes what is written -/

/-- A store, and the paths under which documents have been written and not removed since. -/
structure Noted (σ : Type) where
  store : σ
  written : List Path := []

namespace Noted

variable {σ : Type} [FileStore σ]

instance : FileStore (Noted σ) where
  read? n := FileStore.read? n.store
  write n path text := (FileStore.write n.store path text).map fun (d, store) =>
    (d, { store, written := d.path :: n.written })
  remove n path :=
    ((FileStore.remove n.store path).1,
      { store := (FileStore.remove n.store path).2
        written := n.written.filter fun p => p != path.normalize })

theorem write_eq (n : Noted σ) (path : Path) (text : Text) :
    FileStore.write n path text = (FileStore.write n.store path text).map fun (d, store) =>
      (d, { store, written := d.path :: n.written }) := rfl

theorem write_ok {n n' : Noted σ} {path : Path} {text : Text} {d : Document}
    (h : FileStore.write n path text = .ok (d, n')) :
    FileStore.write n.store path text = .ok (d, n'.store) ∧ n'.written = d.path :: n.written := by
  rw [write_eq] at h
  cases hwrite : FileStore.write n.store path text with
  | error e => simp [hwrite, Except.map] at h
  | ok stored =>
    simp only [hwrite, Except.map, Except.ok.injEq, Prod.mk.injEq] at h
    obtain ⟨rfl, rfl⟩ := h
    exact ⟨rfl, rfl⟩

theorem mem_written_remove {n : Noted σ} {path p : Path} :
    p ∈ (FileStore.remove n path).2.written ↔ p ∈ n.written ∧ p ≠ path.normalize := by
  change p ∈ n.written.filter _ ↔ _
  simp

instance [LawfulFileStore σ] : LawfulFileStore (Noted σ) :=
  ⟨fun h => LawfulFileStore.write_ok (write_ok h).1⟩

end Noted

namespace SourceFile

/-! ## Runs -/

/-- What happens to a source file and to its store. Documents may be written, and writes may be
refused from now on or no more; that is a change of the store like any other. -/
inductive Incident (σ : Type) where
  | other (change : σ → σ)
  | remove (path : Path)
  | update

/-- The same, in a store that takes notes. Only removals and updates are noted. -/
def Incident.noted {σ : Type} : Incident σ → Incident (Noted σ)
  | other change => .other fun n => { n with store := change n.store }
  | remove path => .remove path
  | update => .update

namespace InStore

variable {σ : Type} [FileStore σ]

/-- An incident takes place. -/
def meet (s : InStore σ) : Incident σ → InStore σ
  | .other change => { s with store := change s.store }
  | .remove path => { s with store := (FileStore.remove s.store path).2 }
  | .update => s.update.2

/-- Incidents take place one after another. -/
def through (s : InStore σ) (incidents : List (Incident σ)) : InStore σ := incidents.foldl meet s

@[simp] theorem through_snoc (s : InStore σ) (incidents : List (Incident σ)) (i : Incident σ) :
    s.through (incidents ++ [i]) = (s.through incidents).meet i := by
  rw [through, List.foldl_append]
  rfl

/-- The file in the store without the notes. -/
def forget (s : InStore (Noted σ)) : InStore σ := ⟨s.file, s.store.store⟩

end InStore

/-! ## Notes do not matter -/

section

variable {σ : Type} [FileStore σ]

theorem writeArtifacts_noted (source : Path) (artifacts : List Artifact) (n : Noted σ) :
    writeArtifacts source artifacts n.store =
      ((writeArtifacts source artifacts n).1, (writeArtifacts source artifacts n).2.store) := by
  induction artifacts generalizing n with
  | nil => rfl
  | cons a artifacts ih =>
    rw [writeArtifacts, writeArtifacts, Noted.write_eq]
    cases hwrite : FileStore.write n.store ⟨a.fileName⟩ a.text with
    | error e => rfl
    | ok stored =>
      obtain ⟨d, store⟩ := stored
      have hrest := ih ⟨store, d.path :: n.written⟩
      dsimp only [Except.map] at hrest ⊢
      rcases hnoted : writeArtifacts source artifacts (⟨store, d.path :: n.written⟩ : Noted σ)
        with ⟨e | codes, n'⟩
      · rw [hnoted] at hrest
        rw [hrest]
      · rw [hnoted] at hrest
        rw [hrest]

theorem removeStale_noted (old new : List VirtualCode) (n : Noted σ) :
    removeStale old new n.store = (removeStale old new n).store := by
  unfold removeStale
  exact (List.foldl_hom Noted.store fun n c => rfl)

/-- **An update does the same** whether notes are taken or not. -/
theorem update_forget (s : InStore (Noted σ)) :
    s.forget.update = (s.update.1, s.update.2.forget) := by
  obtain ⟨f, n⟩ := s
  unfold InStore.update InStore.forget SourceFile.update rebuild
  dsimp only
  rw [show FileStore.read? n.store f.path = FileStore.read? n f.path from rfl]
  split
  · rfl
  · next d hread =>
    rw [writeArtifacts_noted]
    split
    · rfl
    · rcases writeArtifacts f.path _ n with ⟨e | codes, n'⟩
      · rfl
      · dsimp only
        rw [removeStale_noted]

/-- **A run is the same** whether notes are taken or not. -/
theorem through_forget (s : InStore (Noted σ)) (incidents : List (Incident σ)) :
    (s.through (incidents.map .noted)).forget = s.forget.through incidents := by
  induction incidents using List.reverseRecOn with
  | nil => rfl
  | append_singleton incidents i ih =>
    rw [List.map_append, List.map_singleton, InStore.through_snoc, InStore.through_snoc, ← ih]
    cases i with
    | other change => rfl
    | remove path => rfl
    | update =>
      rw [InStore.meet, update_forget]
      rfl

/-! ## What is noted -/

/-- If all artifacts are written, then what is noted is their places beside what was noted. -/
theorem written_writeArtifacts {source : Path} {artifacts : List Artifact} {n n' : Noted σ}
    {codes : List VirtualCode} (h : writeArtifacts source artifacts n = (.ok codes, n'))
    {p : Path} : p ∈ n'.written ↔ p ∈ codes.map VirtualCode.path ∨ p ∈ n.written := by
  induction artifacts generalizing n codes with
  | nil =>
    obtain ⟨hcodes, rfl⟩ := Prod.mk.inj h
    rw [← Except.ok.inj hcodes]
    simp
  | cons a artifacts ih =>
    obtain ⟨d, n₁, rest, hwrite, hrest, rfl⟩ := exists_of_writeArtifacts_cons h
    rw [ih hrest, (Noted.write_ok hwrite).2, List.map_cons, List.mem_cons, List.mem_cons]
    exact or_left_comm.trans (or_assoc.symm)

/-- Of what is removed no note is left. -/
theorem written_removeStale {old new : List VirtualCode} {n : Noted σ} {p : Path}
    (h : p ∈ (removeStale old new n).written) :
    p ∈ n.written ∧ ∀ c ∈ old, c.path ∉ new.map VirtualCode.path → p ≠ c.path.normalize := by
  have hfold (codes : List VirtualCode) : ∀ n : Noted σ,
      p ∈ (codes.foldl (fun n c => (FileStore.remove n c.path).2) n).written →
        p ∈ n.written ∧ ∀ c ∈ codes, p ≠ c.path.normalize := by
    induction codes with
    | nil => exact fun _ h => ⟨h, fun _ hc => absurd hc List.not_mem_nil⟩
    | cons c codes ih =>
      intro n h
      obtain ⟨hmem, hrest⟩ := ih _ h
      obtain ⟨hmem, hne⟩ := Noted.mem_written_remove.1 hmem
      exact ⟨hmem, List.forall_mem_cons.2 ⟨hne, hrest⟩⟩
  obtain ⟨hmem, hstale⟩ := hfold _ n h
  refine ⟨hmem, fun c hc hgone => hstale c (List.mem_filter.2 ⟨hc, ?_⟩)⟩
  simpa using hgone

/-! ## What a run keeps -/

/-- The paths of the generated documents that the file lists. -/
def listed (f : SourceFile) : List Path := f.codes.map VirtualCode.path

/-- An update has failed that wrote under the path, and since then there has been a document that
the file has not listed. -/
def Spilled (start : InStore (Noted σ)) (incidents : List (Incident (Noted σ))) (p : Path) : Prop :=
  ∃ before behind, incidents = before ++ .update :: behind ∧
    (∃ e, (start.through before).update.1 = .error e) ∧
    p ∉ (start.through before).store.written ∧
    ∀ between, between <+: behind →
      p ∈ (start.through (before ++ .update :: between)).store.written ∧
        p ∉ (start.through (before ++ .update :: between)).file.listed

variable {start : InStore (Noted σ)} {incidents : List (Incident (Noted σ))} {p : Path}

theorem Spilled.snoc (h : Spilled start incidents p) {i : Incident (Noted σ)}
    (hwritten : p ∈ ((start.through incidents).meet i).store.written)
    (hlisted : p ∉ ((start.through incidents).meet i).file.listed) :
    Spilled start (incidents ++ [i]) p := by
  obtain ⟨before, behind, rfl, hfailed, hnew, hsince⟩ := h
  refine ⟨before, behind ++ [i], by simp, hfailed, hnew, fun between hbetween => ?_⟩
  rcases List.prefix_concat_iff.1 hbetween with rfl | hbetween
  · rw [← List.cons_append, ← List.append_assoc, InStore.through_snoc]
    exact ⟨hwritten, hlisted⟩
  · exact hsince between hbetween

/-- All that has been written and not removed is accounted for. -/
structure Accounted (start : InStore (Noted σ)) (incidents : List (Incident (Noted σ))) : Prop where
  normal : ∀ c ∈ (start.through incidents).file.codes, c.path.normalize = c.path
  written : ∀ p ∈ (start.through incidents).store.written,
    p ∈ (start.through incidents).file.listed ∨ Spilled start incidents p

/-- An incident by which the file lists the same, and nothing new is noted that it does not list. -/
theorem Accounted.snoc (h : Accounted start incidents) {i : Incident (Noted σ)}
    (hcodes : ((start.through incidents).meet i).file.codes = (start.through incidents).file.codes)
    (hnew : ∀ p ∈ ((start.through incidents).meet i).store.written,
      p ∈ (start.through incidents).store.written ∨
        (p ∉ (start.through incidents).file.listed → Spilled start (incidents ++ [i]) p)) :
    Accounted start (incidents ++ [i]) := by
  have hlisted : ((start.through incidents).meet i).file.listed
      = (start.through incidents).file.listed := congrArg (List.map VirtualCode.path) hcodes
  refine ⟨?_, fun p hp => ?_⟩
  · rw [InStore.through_snoc, hcodes]
    exact h.normal
  · rw [InStore.through_snoc] at hp ⊢
    by_cases hin : p ∈ (start.through incidents).file.listed
    · exact .inl (hlisted ▸ hin)
    · right
      rcases hnew p hp with hold | hspilled
      · exact ((h.written p hold).resolve_left hin).snoc hp (hlisted ▸ hin)
      · exact hspilled hin

section

variable [LawfulFileStore σ]

/-- An update accounts for what it writes, by listing it or by failing. -/
theorem Accounted.update (h : Accounted start incidents) :
    Accounted start (incidents ++ [.update]) := by
  rcases hupdate : (start.through incidents).update with ⟨result, s⟩
  have hmeet : (start.through incidents).meet .update = s := congrArg Prod.snd hupdate
  have houtcome := InStore.update_outcome hupdate
  rcases s with ⟨f, n⟩
  dsimp only at houtcome
  cases houtcome with
  | gone | seen => exact h.snoc (by rw [hmeet]; rfl) fun p hp => .inl (by rwa [hmeet] at hp)
  | @failed d e _ hread hversion hwrite =>
    refine h.snoc (by rw [hmeet]; rfl) fun p hp => ?_
    by_cases hold : p ∈ (start.through incidents).store.written
    · exact .inl hold
    · refine .inr fun hin => ⟨incidents, [], rfl, ⟨e, congrArg Prod.fst hupdate⟩, hold, ?_⟩
      intro between hbetween
      rw [List.prefix_nil.1 hbetween, InStore.through_snoc]
      exact ⟨hp, by rw [hmeet]; exact hin⟩
  | @rebuilt d codes written hread hversion hwrite =>
    have hholds := writeArtifacts_ok hwrite
    refine ⟨fun c hc => ?_, fun p hp => ?_⟩
    · rw [InStore.through_snoc, hmeet] at hc
      obtain ⟨a, -, ha⟩ := exists_of_holds hholds hc
      rw [ha.path_eq]
      exact Path.normalize_normalize _
    · rw [InStore.through_snoc, hmeet] at hp ⊢
      obtain ⟨hp', hstale⟩ := written_removeStale hp
      by_cases hin : p ∈ codes.map VirtualCode.path
      · exact .inl hin
      · right
        have hold := ((written_writeArtifacts hwrite).1 hp').resolve_left hin
        rcases h.written p hold with hbefore | hspilled
        -- what was listed before and is listed no more has been removed
        · obtain ⟨c, hc, rfl⟩ := List.mem_map.1 hbefore
          exact absurd (h.normal c hc).symm (hstale c hc hin)
        · exact hspilled.snoc (by rw [hmeet]; exact hp) (by rw [hmeet]; exact hin)

/-- **Every run** accounts for what is written. -/
theorem accounted_through (path : Path) (options : ParseOptions) (store : σ)
    (incidents : List (Incident σ)) :
    Accounted (.fresh path options ⟨store, []⟩) (incidents.map .noted) := by
  induction incidents using List.reverseRecOn with
  | nil => exact ⟨fun c hc => absurd hc List.not_mem_nil, fun p hp => absurd hp List.not_mem_nil⟩
  | append_singleton incidents i ih =>
    rw [List.map_append, List.map_singleton]
    cases i with
    | other change => exact ih.snoc rfl fun p hp => .inl hp
    | remove path => exact ih.snoc rfl fun p hp => .inl (Noted.mem_written_remove.1 hp).1
    | update => exact ih.update

/-- **What has been written is listed or spilled.** Whatever happens to a source file and its
store, a place where an update has put a generated document, and which nobody has cleared since, is
the path of one of the documents that the file lists; unless it was put there by an update that
failed, and the file has not listed it at any time since then. The notes from which this is told
change nothing in the run. -/
theorem written_listed_or_spilled (path : Path) (options : ParseOptions) (store : σ)
    (incidents : List (Incident σ)) :
    let start : InStore (Noted σ) := .fresh path options ⟨store, []⟩
    let s := start.through (incidents.map .noted)
    s.forget = (InStore.fresh path options store).through incidents ∧
      ∀ p ∈ s.store.written, p ∈ s.file.listed ∨ Spilled start (incidents.map .noted) p :=
  ⟨through_forget _ incidents, (accounted_through path options store incidents).written⟩

end

end

/-! ## A document that is left behind -/

/-- A document is written if it is not refused. -/
def put (path : Path) (text : Text) (g : GuardedOverlay) : GuardedOverlay :=
  match g.write path text with
  | .ok (_, g) => g
  | .error _ => g

/-- A document with a block is written, but the script is refused, and before the next update the
block is taken out. -/
def shrunk : List (Incident GuardedOverlay) :=
  [.other (put (.ofString "/p.md") "```ts\na\n```\n".toList),
    .other fun g => { g with refuses := fun p => p == .ofString "/p.md._mdx.jsx" },
    .update,
    .other fun g => { g with refuses := fun _ => false },
    .other (put (.ofString "/p.md") "b".toList)]

/-- The source file of that document in an empty store. -/
def unseen : InStore (Noted GuardedOverlay) :=
  .fresh (.ofString "/p.md") { dialect := .markdown } ⟨{}, []⟩

/-- The file of the block. -/
def blockPath : Path := .ofString "/p.md.0._md_cb.ts"

/-- The file of the block is not listed, because the update failed that wrote it. -/
theorem spilled_of_refused_write :
    let incidents := (shrunk ++ [Incident.update]).map .noted
    blockPath ∈ (unseen.through incidents).store.written ∧
      blockPath ∉ (unseen.through incidents).file.listed ∧ Spilled unseen incidents blockPath := by
  have hwritten : blockPath ∈
      (unseen.through ((shrunk ++ [Incident.update]).map .noted)).store.written := by
    decide +kernel
  have hunlisted : blockPath ∉
      (unseen.through ((shrunk ++ [Incident.update]).map .noted)).file.listed := by
    decide +kernel
  obtain ⟨-, haccounted⟩ := written_listed_or_spilled (.ofString "/p.md")
    { dialect := .markdown } ({} : GuardedOverlay) (shrunk ++ [Incident.update])
  exact ⟨hwritten, hunlisted, (haccounted blockPath hwritten).resolve_left hunlisted⟩

/-- **A document that is left behind.** After an update that succeeds the file of the block is
still in the store, where an update has put it, and the source file does not list it. -/
theorem orphan_of_refused_write :
    let s := (unseen.through (shrunk.map .noted)).update
    s.1 = .ok true ∧ blockPath ∈ s.2.store.written ∧
      (FileStore.read? s.2.store blockPath).map Document.version = some 1 ∧
      blockPath ∉ s.2.file.listed := by
  decide +kernel

end SourceFile

end HybridMarkup
