/-
Whether a source file is up to date after an update.

A source file tells by the version whether it has parsed a document. As long as the document stays
in the store, its version grows with every change, so the version that was parsed last stands for
the text that was parsed last (`Follows`). After a removal the versions begin again, and the next
text may come to a version that was parsed before. Then the file takes it for the text it knows.

So an update that does not fail leaves the file up to date, unless the document has been removed
since it was last parsed (`update_fresh`), and then it may not be (`update_stale_behind_removal`).
-/
import HybridMarkup.Proofs.Updates
import Mathlib.Data.List.Induction

set_option autoImplicit false

namespace HybridMarkup

namespace SourceFile

/-! ## Runs -/

/-- What happens to a source file and in its store. -/
inductive Event where
  | write (path : Path) (text : Text)
  | remove (path : Path)
  | update
deriving DecidableEq, Repr

namespace InStore

variable {σ : Type} [FileStore σ]

/-- An event takes place. A write that is refused changes nothing. -/
def take (s : InStore σ) : Event → InStore σ
  | .write path text =>
    match FileStore.write s.store path text with
    | .ok (_, store) => { s with store }
    | .error _ => s
  | .remove path => { s with store := (FileStore.remove s.store path).2 }
  | .update => s.update.2

/-- Events take place one after another. -/
def run (s : InStore σ) (events : List Event) : InStore σ := events.foldl take s

@[simp] theorem run_snoc (s : InStore σ) (events : List Event) (e : Event) :
    s.run (events ++ [e]) = (s.run events).take e := by
  rw [run, List.foldl_append]
  rfl

/-- There was a document, it has been removed, and since then the file has parsed nothing. -/
def RemovedSince (start : InStore σ) (events : List Event) : Prop :=
  ∃ before place behind, events = before ++ .remove place :: behind ∧
    place.normalize = (start.run before).file.path.normalize ∧
    (FileStore.remove (start.run before).store place).1 = true ∧
    (start.run events).file.unmarked = (start.run before).file.unmarked

theorem RemovedSince.snoc {start : InStore σ} {events : List Event} (h : start.RemovedSince events)
    {e : Event}
    (hfile : ((start.run events).take e).file.unmarked = (start.run events).file.unmarked) :
    start.RemovedSince (events ++ [e]) := by
  obtain ⟨before, place, behind, hevents, hplace, hfound, hsame⟩ := h
  refine ⟨before, place, behind ++ [e], ?_, hplace, hfound, ?_⟩
  · rw [hevents, List.append_assoc, List.cons_append]
  · rw [run_snoc, hfile, hsame]

end InStore

/-! ## What the version tells -/

section

variable {σ : Type} [FileStore σ]

/-- The version of the stored document has not fallen behind the one that was parsed, and if it is
the same, then the document still has the text that was parsed. -/
def Follows (f : SourceFile) (text : Text) (store : σ) : Prop :=
  ∃ v d, f.parsedVersion = some v ∧ FileStore.read? store f.path = some d ∧ v ≤ d.version ∧
    (v = d.version → d.text = text)

theorem Follows.of_read {f f' : SourceFile} {text : Text} {store store' : σ}
    (h : f.Follows text store) (hfile : f'.unmarked = f.unmarked)
    (hread : FileStore.read? store' f.path = FileStore.read? store f.path) :
    f'.Follows text store' := by
  obtain ⟨v, d, hv, hd, hle, htext⟩ := h
  obtain ⟨hpath, -, hversion, -⟩ := unmarked_eq_iff.1 hfile
  exact ⟨v, d, hversion.trans hv, by rw [hpath, hread, hd], hle, htext⟩

variable [VersionedFileStore σ]

/-- A write keeps what the version tells. -/
theorem Follows.write {f : SourceFile} {text written : Text} {store store' : σ} {path : Path}
    {d : Document} (h : f.Follows text store)
    (hwrite : FileStore.write store path written = .ok (d, store')) : f.Follows text store' := by
  obtain ⟨v, before, hv, hbefore, hle, htext⟩ := h
  have hread := VersionedFileStore.read?_write hwrite f.path
  by_cases hplace : f.path.normalize = path.normalize
  · rw [if_pos hplace] at hread
    refine ⟨v, d, hv, hread, ?_⟩
    rcases VersionedFileStore.version_write hwrite hplace hbefore with rfl | hlt
    · exact ⟨hle, htext⟩
    · exact ⟨by omega, fun heq => by omega⟩
  · rw [if_neg hplace, hbefore] at hread
    exact ⟨v, before, hv, hread, hle, htext⟩

/-! ## What a run keeps -/

/-- Where a source file stands after a run: it has parsed nothing so far, or it holds what a text
gives, and then its version tells whether the text is still the stored one, unless the document
has been removed. -/
inductive Standing (path : Path) (options : ParseOptions) (start : InStore σ)
    (events : List Event) : Prop
  | unparsed (hfile : (start.run events).file.unmarked = { path, options })
  | parsed (text : Text) (hreflects : (start.run events).file.Reflects path options text)
      (hsince : (start.run events).file.Follows text (start.run events).store ∨
        start.RemovedSince events)

variable {path : Path} {options : ParseOptions} {start : InStore σ} {events : List Event}

omit [VersionedFileStore σ] in
/-- An event that changes nothing in the file, nor what the version tells. -/
theorem Standing.snoc (h : Standing path options start events) {e : Event}
    (hfile : ((start.run events).take e).file.unmarked = (start.run events).file.unmarked)
    (hsince : ∀ text, (start.run events).file.Follows text (start.run events).store →
      ((start.run events).take e).file.Follows text ((start.run events).take e).store ∨
        start.RemovedSince (events ++ [e])) :
    Standing path options start (events ++ [e]) := by
  cases h with
  | unparsed hstart =>
    refine .unparsed ?_
    rw [InStore.run_snoc, hfile, hstart]
  | parsed text hreflects hbefore =>
    refine .parsed text ?_ ?_
    · rw [InStore.run_snoc]
      exact hreflects.of_unmarked hfile
    · rw [InStore.run_snoc]
      rcases hbefore with hfollows | hremoved
      · exact hsince text hfollows
      · exact .inr (hremoved.snoc hfile)

omit [VersionedFileStore σ] in
/-- The places of what a file has generated, in whatever state it stands. -/
theorem Standing.placed (h : Standing path options start events) :
    (start.run events).file.path = path ∧ (start.run events).file.options = options ∧
      ∀ c ∈ (start.run events).file.codes,
        c.path.normalize = c.path ∧ c.path ≠ (start.run events).file.path.normalize := by
  cases h with
  | unparsed hfile =>
    obtain ⟨hpath, hoptions, -, -, hcodes⟩ := unmarked_eq_iff (f := { path, options }).1 hfile
    refine ⟨hpath, hoptions, fun c hc => ?_⟩
    rw [hcodes] at hc
    exact absurd hc List.not_mem_nil
  | parsed text hreflects _ =>
    refine ⟨hreflects.path_eq, hreflects.options_eq, fun c hc => ?_⟩
    rw [hreflects.path_eq]
    exact placed_of_holds hreflects.holds hc

theorem Standing.write (h : Standing path options start events) (place : Path) (text : Text) :
    Standing path options start (events ++ [.write place text]) := by
  rcases hwrite : FileStore.write (start.run events).store place text with e | ⟨d, store⟩
  · have htake : (start.run events).take (.write place text) = start.run events := by
      rw [InStore.take, hwrite]
    refine h.snoc (by rw [htake]) fun parsed hfollows => .inl ?_
    rwa [htake]
  · have htake : (start.run events).take (.write place text)
        = { start.run events with store } := by
      rw [InStore.take, hwrite]
    refine h.snoc (by rw [htake]) fun parsed hfollows => .inl ?_
    rw [htake]
    exact hfollows.write hwrite

theorem Standing.remove (h : Standing path options start events) (place : Path) :
    Standing path options start (events ++ [.remove place]) := by
  refine h.snoc rfl fun text hfollows => ?_
  by_cases hgone : place.normalize = (start.run events).file.path.normalize ∧
      (FileStore.remove (start.run events).store place).1 = true
  · exact .inr ⟨events, place, [], rfl, hgone.1, hgone.2, by rw [InStore.run_snoc]; rfl⟩
  · refine .inl (hfollows.of_read rfl (VersionedFileStore.read?_remove ?_))
    by_cases hplace : (start.run events).file.path.normalize = place.normalize
    · exact .inr (Bool.eq_false_iff.2 fun hfound => hgone ⟨hplace.symm, hfound⟩)
    · exact .inl hplace

/-- After an update that has parsed the document the file holds what it gives. -/
theorem Standing.update (h : Standing path options start events) :
    Standing path options start (events ++ [.update]) := by
  obtain ⟨hpath, hoptions, hplaced⟩ := h.placed
  have hread := read?_update (start.run events).file (start.run events).store hplaced
  rcases hupdate : (start.run events).file.update (start.run events).store with ⟨result, f, store⟩
  have htake : (start.run events).take .update = ⟨f, store⟩ := by
    rw [InStore.take, InStore.update, hupdate]
  rw [hupdate] at hread
  cases outcome_of_update hupdate with
  | gone | seen | failed =>
    refine h.snoc (by rw [htake]; rfl) fun text hfollows => .inl ?_
    rw [htake]
    exact hfollows.of_read rfl hread
  | @rebuilt d codes written hd _ hwrite =>
    have hreflects := reflects_built hwrite
    rw [hpath, hoptions] at hreflects
    refine .parsed d.text ?_ (.inl ⟨d.version, d, ?_, ?_, Nat.le_refl _, fun _ => rfl⟩)
    · rw [InStore.run_snoc, htake]
      exact hreflects
    · rw [InStore.run_snoc, htake]
      rfl
    · rw [InStore.run_snoc, htake]
      exact hread.trans hd

/-- **Every run** leaves a source file in such a state. -/
theorem standing_run (path : Path) (options : ParseOptions) (store : σ) (events : List Event) :
    Standing path options (.fresh path options store) events := by
  induction events using List.reverseRecOn with
  | nil => exact .unparsed rfl
  | append_singleton events e ih =>
    cases e with
    | write place text => exact ih.write place text
    | remove place => exact ih.remove place
    | update => exact ih.update

/-! ## Updates that do not fail -/

omit [VersionedFileStore σ] in
/-- Behind an update that does not fail the version that was parsed last is the stored one. -/
theorem parsedVersion_update {f f' : SourceFile} {store store' : σ} {made : Bool} {d : Document}
    (hupdate : f.update store = (.ok made, f', store'))
    (hread : FileStore.read? store' f.path = FileStore.read? store f.path)
    (hd : FileStore.read? store' f.path = some d) : f'.parsedVersion = some d.version := by
  rw [hread] at hd
  cases outcome_of_update hupdate with
  | gone hgone =>
    rw [hgone] at hd
    contradiction
  | seen hseen hversion =>
    obtain rfl := Option.some.inj (hseen.symm.trans hd)
    exact hversion
  | rebuilt hparsed =>
    obtain rfl := Option.some.inj (hparsed.symm.trans hd)
    rfl

/-- **An update leaves the file up to date.** If after a run an update does not fail, and there is a
document in the store, then the file holds what this document gives: its parse is that of the
text, and the generated documents are the artifacts of the parse, one for one and in order. Only if
the document has been removed since it was last parsed, the file may have missed that there is
another one, namely if that has come to the version that the file has parsed. -/
theorem update_fresh (path : Path) (options : ParseOptions) (store : σ) (events : List Event)
    {made : Bool} {s : InStore σ} {d : Document}
    (hok : ((InStore.fresh path options store).run events).update = (.ok made, s))
    (hd : FileStore.read? s.store path = some d) :
    s.file.parsedVersion = some d.version ∧
      (s.file.Reflects path options d.text ∨
        (InStore.fresh path options store).RemovedSince (events ++ [.update])) := by
  have hstanding := standing_run path options store events
  have hafter := hstanding.update
  obtain ⟨hpath, -, hplaced⟩ := hstanding.placed
  generalize InStore.fresh path options store = start at *
  obtain ⟨hresult, rfl⟩ := Prod.mk.inj hok
  have hversion : ((start.run events).file.update (start.run events).store).2.1.parsedVersion
      = some d.version :=
    parsedVersion_update (Prod.ext hresult rfl) (read?_update _ _ hplaced) (hpath ▸ hd)
  refine ⟨hversion, ?_⟩
  cases hafter with
  | unparsed hfile =>
    rw [InStore.run_snoc] at hfile
    have hnone := (unmarked_eq_iff (f := { path, options }).1 hfile).2.2.1
    exact absurd (hversion.symm.trans hnone) (by simp)
  | parsed text hreflects hsince =>
    refine hsince.imp_left fun hfollows => ?_
    rw [InStore.run_snoc] at hreflects hfollows
    obtain ⟨v, d', hv, hd', -, htext⟩ := hfollows
    rw [hreflects.path_eq] at hd'
    obtain rfl : d' = d := Option.some.inj (hd'.symm.trans hd)
    rw [htext (Option.some.inj (hv.symm.trans hversion))]
    exact hreflects

end

/-- A source file in an empty store. -/
def untouched : InStore Overlay := .fresh (.ofString "/p.md") {} {}

/-- The document is written, parsed and changed. -/
def changed : List Event :=
  [.write (.ofString "/p.md") "a".toList, .update, .write (.ofString "/p.md") "b".toList]

/-- The document is written, parsed, removed and written again. -/
def rewritten : List Event :=
  [.write (.ofString "/p.md") "a".toList, .update, .remove (.ofString "/p.md"),
    .write (.ofString "/p.md") "b".toList]

/-- Behind a change an update brings the file up to date. -/
theorem update_fresh_behind_change :
    (untouched.run changed).update.1 = .ok true ∧
      FileStore.read? (untouched.run changed).update.2.store (.ofString "/p.md")
        = some ⟨.ofString "/p.md", 2, "b".toList⟩ ∧
      (untouched.run changed).update.2.file.Reflects (.ofString "/p.md") {} "b".toList := by
  have hok : (untouched.run changed).update.1 = .ok true := by decide +kernel
  have hd : FileStore.read? (untouched.run changed).update.2.store (.ofString "/p.md")
      = some ⟨.ofString "/p.md", 2, "b".toList⟩ := by decide +kernel
  have hupdate : (untouched.run changed).update = (.ok true, (untouched.run changed).update.2) :=
    Prod.ext hok rfl
  obtain ⟨-, hfresh | hremoved⟩ :=
    update_fresh (σ := Overlay) (.ofString "/p.md") {} {} changed hupdate hd
  · exact ⟨hok, hd, hfresh⟩
  -- nothing has been removed
  · obtain ⟨before, place, behind, hevents, -⟩ := hremoved
    have hmem : Event.remove place ∈ changed ++ [.update] :=
      hevents ▸ List.mem_append_right before List.mem_cons_self
    simp [changed] at hmem

/-- **A text that is missed.** A document that is removed and written again has the version that it
had at first, and after an update that does not fail the file still holds what the text gave that is
gone. -/
theorem update_stale_behind_removal :
    (untouched.run rewritten).update.1 = .ok false ∧
      FileStore.read? (untouched.run rewritten).update.2.store (.ofString "/p.md")
        = some ⟨.ofString "/p.md", 1, "b".toList⟩ ∧
      ¬ (untouched.run rewritten).update.2.file.Reflects (.ofString "/p.md") {} "b".toList := by
  refine ⟨by decide +kernel, by decide +kernel, fun h => ?_⟩
  have hparsed : (untouched.run rewritten).update.2.file.parse.map (fun p => p.tree.text)
      = some "a".toList := by decide +kernel
  rw [h.parse_eq] at hparsed
  exact absurd hparsed (by decide +kernel)

end SourceFile

end HybridMarkup
