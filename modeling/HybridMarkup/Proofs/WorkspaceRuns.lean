/-
What the versions of documents tell over a run of a workspace.

The store of a workspace only ever writes documents and removes them, and in one action it writes
first (`perform_store`). A write either leaves a document as it is or gives it a greater version
(`Overlay.Grows`), so as long as there is a document under a path, a version of it stands for one
text. A removal takes the version away with the document, and the next one begins at 1. So two
documents with the same path and version may differ, but only if there was none between them
(`version_identifies_text`), and then they may (`version_used_again`). This happens to the files of
blocks, which come and go as their document is edited.
-/
import HybridMarkup.Proofs.Updates
import Mathlib.Data.Nat.Init

set_option autoImplicit false

namespace HybridMarkup

/-! ## Writing and removing -/

namespace Overlay

variable {o o' o'' : Overlay}

/-- Documents stay as they are or get greater versions. -/
def Grows (o o' : Overlay) : Prop :=
  ∀ q d, o.held? q = some d → ∃ d', o'.held? q = some d' ∧ (d' = d ∨ d.version < d'.version)

/-- Documents stay as they are or go. -/
def Shrinks (o o' : Overlay) : Prop := ∀ q d, o'.held? q = some d → o.held? q = some d

theorem Grows.refl (o : Overlay) : o.Grows o := fun _ d hd => ⟨d, hd, .inl rfl⟩

theorem Grows.trans (h : o.Grows o') (h' : o'.Grows o'') : o.Grows o'' := by
  intro q d hd
  obtain ⟨d', hd', hle⟩ := h q d hd
  obtain ⟨d'', hd'', hle'⟩ := h' q d' hd'
  refine ⟨d'', hd'', ?_⟩
  rcases hle with rfl | hlt
  · exact hle'
  · rcases hle' with rfl | hlt'
    · exact .inr hlt
    · exact .inr (Nat.lt_trans hlt hlt')

theorem Shrinks.refl (o : Overlay) : o.Shrinks o := fun _ _ hd => hd

theorem grows_of_write {path : Path} {text : Text} {d : Document}
    (h : o.write path text = .ok (d, o')) : o.Grows o' := by
  have hwritten := written_of_write h
  intro q before hbefore
  by_cases hq : q = path.normalize
  · subst hq
    exact ⟨d, by rw [hwritten.held?_eq, if_pos rfl], hwritten.version_le hbefore⟩
  · exact ⟨before, by rw [hwritten.held?_eq, if_neg hq, hbefore], .inl rfl⟩

theorem shrinks_removals (paths : List Path) (o : Overlay) :
    o.Shrinks (paths.foldl (fun o path => (o.remove path).2) o) := by
  intro q d hd
  rw [held?_removals] at hd
  split at hd
  · contradiction
  · exact hd

theorem shrinks_removeStale (old new : List VirtualCode) (o : Overlay) :
    o.Shrinks (SourceFile.removeStale old new o) := by
  intro q d hd
  rw [held?_removeStale] at hd
  split at hd
  · contradiction
  · exact hd

theorem grows_writeArtifacts (source : Path) (artifacts : List Artifact) (o : Overlay) :
    o.Grows (SourceFile.writeArtifacts source artifacts o).2 :=
  SourceFile.writeArtifacts_preserves (P := o.Grows) source (.refl o)
    fun _ _ _ _ _ hgrown hwrite => hgrown.trans (grows_of_write hwrite)

/-- An update writes first and then removes. -/
theorem exists_of_update (f : SourceFile) (o : Overlay) :
    ∃ written, o.Grows written ∧ written.Shrinks (f.update o).2.2 := by
  have hgrows (text : Text) := grows_writeArtifacts f.path (f.artifactsOf text) o
  rcases hupdate : f.update o with ⟨result, f', o'⟩
  cases SourceFile.outcome_of_update hupdate with
  | gone | seen => exact ⟨o, .refl o, .refl o⟩
  | @failed d _ _ _ _ hwrite =>
    have hstored := hgrows d.text
    rw [hwrite] at hstored
    exact ⟨_, hstored, .refl _⟩
  | @rebuilt d _ _ _ _ hwrite =>
    have hstored := hgrows d.text
    rw [hwrite] at hstored
    exact ⟨_, hstored, shrinks_removeStale _ _ _⟩

end Overlay

namespace Workspace

/-! ## Runs -/

/-- What an editor does. -/
inductive Action where
  | openDocument (path : Path) (text : Text)
  | change (path : Path) (text : Text)
  | update (path : Path)
  | close (path : Path)
deriving DecidableEq, Repr

/-- The workspace after an action, whether it has failed or not. -/
def perform (w : Workspace) : Action → Workspace
  | .openDocument path text => (w.openDocument path text).2
  | .change path text => (w.change path text).2
  | .update path => (w.update path).2
  | .close path => (w.close path).2

/-- The workspace after some actions. -/
def run (w : Workspace) (actions : List Action) : Workspace := actions.foldl perform w

/-- A workspace in which nothing has been done. -/
def fresh (config : Config) (disk : Disk) : Workspace := { config, store := { disk } }

@[simp] theorem run_snoc (w : Workspace) (actions : List Action) (a : Action) :
    w.run (actions ++ [a]) = (w.run actions).perform a := by
  rw [run, List.foldl_append]
  rfl

/-- The source file that an update of a path is about. -/
def fileAt (w : Workspace) (path : Path) (options : ParseOptions) : SourceFile :=
  (w.held? path).getD { path, options }

/-- What an update of a path comes to: it is of no known dialect, or its file is updated. -/
inductive Updated (w : Workspace) (path : Path) :
    Except StoreError (Option SourceFile) → Workspace → Prop
  | unknown (hknown : w.config.parseOptions path = none) : Updated w path (.ok none) w
  | known {options : ParseOptions} {result : Except StoreError Bool} {f : SourceFile}
      {store : Overlay} (hknown : w.config.parseOptions path = some options)
      (hupdate : (w.fileAt path options).update w.store = (result, f, store)) :
      Updated w path (result.map fun _ => some f) ({ w with store }.putFile f)

theorem updated (w : Workspace) (path : Path) :
    w.Updated path.normalize (w.update path).1 (w.update path).2 := by
  unfold update
  dsimp only
  split
  · next hknown => exact .unknown hknown
  · next options hknown =>
    split
    · next made f store hupdate => exact .known hknown hupdate
    · next e f store hupdate => exact .known hknown hupdate

/-- What opening a document at a path comes to: it is not stored, or its file is updated. -/
inductive Opened (w : Workspace) (path : Path) (text : Text) :
    Except StoreError (Option SourceFile) → Workspace → Prop
  | refused {e : StoreError} (hwrite : w.store.write path text = .error e) :
      Opened w path text (.error e) w
  | stored {d : Document} {store : Overlay} {result : Except StoreError (Option SourceFile)}
      {w' : Workspace} (hwrite : w.store.write path text = .ok (d, store))
      (hupdated : { w with store }.Updated path result w') : Opened w path text result w'

theorem opened (w : Workspace) (path : Path) (text : Text) :
    w.Opened path.normalize text (w.openDocument path text).1 (w.openDocument path text).2 := by
  unfold openDocument
  dsimp only
  split
  · next e hwrite => exact .refused hwrite
  · next d store hwrite =>
    have hupdated := updated { w with store } path.normalize
    rw [Path.normalize_normalize] at hupdated
    exact .stored hwrite hupdated

/-- What is removed when a path is closed. -/
def closing (w : Workspace) (path : Path) : List Path :=
  (((w.held? path).map SourceFile.codes).getD []).map VirtualCode.path ++ [path]

theorem close_eq (w : Workspace) (path : Path) :
    (w.close path).2 =
      { w with
        store := (w.closing path.normalize).foldl (fun o path => (o.remove path).2) w.store
      }.dropFile path.normalize := by
  rw [closing, List.foldl_append]
  rfl

/-- **An action writes first and then removes.** -/
theorem perform_store (w : Workspace) (a : Action) :
    ∃ written, w.store.Grows written ∧ written.Shrinks (w.perform a).store := by
  have hupdated {w w' : Workspace} {path : Path} {result : Except StoreError (Option SourceFile)}
      (h : w.Updated path result w') :
      ∃ written, w.store.Grows written ∧ written.Shrinks w'.store := by
    cases h with
    | unknown => exact ⟨_, .refl _, .refl _⟩
    | @known options _ _ _ _ hupdate =>
      have hstore := Overlay.exists_of_update (w.fileAt path options) w.store
      rw [hupdate] at hstore
      exact hstore
  have hopened {w' : Workspace} {path : Path} {text : Text}
      {result : Except StoreError (Option SourceFile)} (h : w.Opened path text result w') :
      ∃ written, w.store.Grows written ∧ written.Shrinks w'.store := by
    cases h with
    | refused => exact ⟨_, .refl _, .refl _⟩
    | stored hwrite hafter =>
      obtain ⟨written, hgrows, hshrinks⟩ := hupdated hafter
      exact ⟨written, (Overlay.grows_of_write hwrite).trans hgrows, hshrinks⟩
  cases a with
  | openDocument path text => exact hopened (w.opened path text)
  | change path text => exact hopened (w.opened path text)
  | update path => exact hupdated (w.updated path)
  | close path =>
    refine ⟨w.store, .refl _, ?_⟩
    rw [perform, close_eq]
    exact Overlay.shrinks_removals _ _

/-! ## Listed documents -/

/-- A generated document is listed under a path in normal form. -/
def Lists (w : Workspace) (c : VirtualCode) : Prop := ∃ f ∈ w.files, c ∈ f.codes

theorem mem_putFile {w : Workspace} {f g : SourceFile} (h : g ∈ (w.putFile f).files) :
    g = f ∨ g ∈ w.files := by
  rcases List.mem_cons.1 h with rfl | h
  · exact .inl rfl
  · exact .inr (List.mem_filter.1 h).1

theorem mem_of_held? {w : Workspace} {path : Path} {f : SourceFile} (h : w.held? path = some f) :
    f ∈ w.files ∧ f.path = path :=
  ⟨List.mem_of_find?_eq_some h, by simpa using List.find?_some h⟩

theorem lists_of_fileAt {w : Workspace} {path : Path} {options : ParseOptions} {c : VirtualCode}
    (hc : c ∈ (w.fileAt path options).codes) : w.Lists c := by
  unfold fileAt at hc
  cases hheld : w.held? path with
  | none =>
    rw [hheld] at hc
    exact absurd hc List.not_mem_nil
  | some f =>
    rw [hheld] at hc
    exact ⟨f, (mem_of_held? hheld).1, hc⟩

/-- **A document that is listed** after an action was listed before, or it has just been stored. -/
theorem lists_perform {w : Workspace} (hnormal : ∀ c, w.Lists c → c.path.normalize = c.path)
    {a : Action} {c : VirtualCode} (h : (w.perform a).Lists c) :
    w.Lists c ∨
      c.path.normalize = c.path ∧ (w.perform a).store.held? c.path = some c.document := by
  have hupdated {w w' : Workspace} {path : Path} {result : Except StoreError (Option SourceFile)}
      (hnormal : ∀ c, w.Lists c → c.path.normalize = c.path) (hafter : w.Updated path result w')
      (h : w'.Lists c) :
      w.Lists c ∨ c.path.normalize = c.path ∧ w'.store.held? c.path = some c.document := by
    cases hafter with
    | unknown => exact .inl h
    | known _ hupdate =>
      obtain ⟨g, hg, hc⟩ := h
      rcases mem_putFile hg with rfl | hg
      · exact (SourceFile.listed_update hupdate
          (fun c hc => hnormal c (lists_of_fileAt hc)) hc).imp_left lists_of_fileAt
      · exact .inl ⟨g, hg, hc⟩
  have hopened {w' : Workspace} {path : Path} {text : Text}
      {result : Except StoreError (Option SourceFile)} (hafter : w.Opened path text result w')
      (h : w'.Lists c) :
      w.Lists c ∨ c.path.normalize = c.path ∧ w'.store.held? c.path = some c.document := by
    cases hafter with
    | refused => exact .inl h
    | @stored _ store _ _ _ hafter => exact hupdated (w := { w with store }) hnormal hafter h
  cases a with
  | openDocument path text => exact hopened (w.opened path text) h
  | change path text => exact hopened (w.opened path text) h
  | update path => exact hupdated hnormal (w.updated path) h
  | close path =>
    rw [perform, close_eq] at h
    obtain ⟨f, hf, hc⟩ := h
    exact .inl ⟨f, (List.mem_filter.1 hf).1, hc⟩

/-! ## What was there at a moment -/

/-- The workspace after the first `n` of some actions. -/
def moment (w : Workspace) (actions : List Action) (n : Nat) : Workspace := w.run (actions.take n)

theorem moment_succ (w : Workspace) (actions : List Action) (n : Nat) :
    w.moment actions (n + 1) = w.moment actions n ∨
      ∃ a, w.moment actions (n + 1) = (w.moment actions n).perform a := by
  unfold moment
  rw [List.take_add_one]
  cases actions[n]? with
  | none => exact .inl (by rw [Option.toList_none, List.append_nil])
  | some a => exact .inr ⟨a, by rw [Option.toList_some, run_snoc]⟩

variable {w : Workspace} {actions : List Action}

/-- **While there is a document under a path**, it stays as it is or its version grows. -/
theorem version_between {path : Path} {d d' : Document} {l n : Nat} (hln : l ≤ n)
    (hd : (w.moment actions l).store.held? path = some d)
    (hd' : (w.moment actions n).store.held? path = some d')
    (hstays : ∀ m, l < m → m < n → (w.moment actions m).store.held? path ≠ none) :
    d' = d ∨ d.version < d'.version := by
  induction n, hln using Nat.le_induction generalizing d' with
  | base => exact .inl (Option.some.inj (hd'.symm.trans hd))
  | succ n hln ih =>
    -- the document at the moment before
    obtain ⟨before, hbefore⟩ : ∃ before, (w.moment actions n).store.held? path = some before := by
      rcases Nat.eq_or_lt_of_le hln with rfl | hlt
      · exact ⟨d, hd⟩
      · exact Option.ne_none_iff_exists'.1 (hstays n hlt (Nat.lt_succ_self n))
    have hsofar := ih hbefore fun m hl hm => hstays m hl (Nat.lt_succ_of_lt hm)
    rcases moment_succ w actions n with hsame | ⟨a, hstep⟩
    · rw [hsame, hbefore] at hd'
      exact Option.some.inj hd' ▸ hsofar
    · obtain ⟨written, hgrows, hshrinks⟩ := (w.moment actions n).perform_store a
      obtain ⟨d'', hd'', hnext⟩ := hgrows path before hbefore
      rw [hstep] at hd'
      obtain rfl : d'' = d' := Option.some.inj (hd''.symm.trans (hshrinks path d' hd'))
      rcases hsofar with rfl | hlt
      · exact hnext
      · rcases hnext with rfl | hlt'
        · exact .inr hlt
        · exact .inr (Nat.lt_trans hlt hlt')

/-- **A listed document was stored** at some moment. -/
theorem stored_of_lists (config : Config) (disk : Disk) (actions : List Action) (n : Nat) :
    ∀ c, ((fresh config disk).moment actions n).Lists c → c.path.normalize = c.path ∧
      ∃ l ≤ n, ((fresh config disk).moment actions l).store.held? c.path = some c.document := by
  induction n with
  | zero =>
    rintro c ⟨f, hf, -⟩
    exact absurd hf List.not_mem_nil
  | succ n ih =>
    intro c hc
    have hbefore (h : ((fresh config disk).moment actions n).Lists c) :
        c.path.normalize = c.path ∧ ∃ l ≤ n + 1,
          ((fresh config disk).moment actions l).store.held? c.path = some c.document := by
      obtain ⟨hnormal, l, hl, hheld⟩ := ih c h
      exact ⟨hnormal, l, Nat.le_succ_of_le hl, hheld⟩
    rcases moment_succ (fresh config disk) actions n with hsame | ⟨a, hstep⟩
    · exact hbefore (hsame ▸ hc)
    · rw [hstep] at hc
      rcases lists_perform (fun c hc => (ih c hc).1) hc with hold | ⟨hnormal, hheld⟩
      · exact hbefore hold
      · exact ⟨hnormal, n + 1, Nat.le_refl _, hstep ▸ hheld⟩

/-! ## What a version tells -/

/-- A document that can be seen in a workspace: it is read under a path, or it is listed. -/
def Shows (w : Workspace) (d : Document) : Prop :=
  (∃ path, w.document? path = some d) ∨ ∃ c, w.Lists c ∧ c.document = d

/-- **A document that is seen with a version was stored** at some moment. -/
theorem stored_of_shows {config : Config} {disk : Disk} {n : Nat} {d : Document}
    (h : ((fresh config disk).moment actions n).Shows d) (hversion : d.version ≠ 0) :
    ∃ l ≤ n, ((fresh config disk).moment actions l).store.held? d.path = some d := by
  rcases h with ⟨path, hread⟩ | ⟨c, hc, rfl⟩
  · refine ⟨n, Nat.le_refl n, ?_⟩
    rw [document?, Overlay.read?_eq] at hread
    rcases Option.or_eq_some_iff.1 hread with hheld | ⟨-, hdisk⟩
    · rw [Overlay.path_of_held hheld]
      exact hheld
    · obtain ⟨_, _, rfl⟩ := Option.map_eq_some_iff.1 hdisk
      exact absurd rfl hversion
  · exact (stored_of_lists config disk actions n c hc).2

/-- **A version identifies a text** as long as there is one. If two documents with the same path and
the same version, other than 0, are seen in a workspace at two moments of a run, then they are the
same document, with the same text; unless one of them was stored, then there was no document in
memory under the path, and then the other one was stored. -/
theorem version_identifies_text (config : Config) (disk : Disk) (actions : List Action) {i j : Nat}
    {d d' : Document} (hd : ((fresh config disk).moment actions i).Shows d)
    (hd' : ((fresh config disk).moment actions j).Shows d') (hpath : d'.path = d.path)
    (hversion : d'.version = d.version) (hnonzero : d.version ≠ 0) :
    let held n := ((fresh config disk).moment actions n).store.held? d.path
    d' = d ∨ ∃ l m n, l < m ∧ m < n ∧ n ≤ max i j ∧ held m = none ∧
      (held l = some d ∧ held n = some d' ∨ held l = some d' ∧ held n = some d) := by
  intro held
  obtain ⟨l, hl, hheld⟩ := stored_of_shows hd hnonzero
  obtain ⟨n, hn, hheld'⟩ := stored_of_shows hd' (hversion ▸ hnonzero)
  rw [hpath] at hheld'
  -- between the two moments there was none, or else the version tells
  have hbetween {l n : Nat} {d d' : Document} (hln : l ≤ n) (hd : held l = some d)
      (hd' : held n = some d') (hversion : d'.version = d.version) :
      d' = d ∨ ∃ m, l < m ∧ m < n ∧ held m = none := by
    by_contra hcontra
    obtain ⟨hne, hnone⟩ := not_or.1 hcontra
    refine (version_between hln hd hd' fun m hl hn hm => hnone ⟨m, hl, hn, hm⟩).elim hne ?_
    exact fun hlt => Nat.ne_of_lt hlt hversion.symm
  rcases Nat.le_total l n with hln | hnl
  · refine (hbetween hln hheld hheld' hversion).imp_right ?_
    rintro ⟨m, hlm, hmn, hnone⟩
    exact ⟨l, m, n, hlm, hmn, Nat.le_trans hn (Nat.le_max_right i j), hnone, .inl ⟨hheld, hheld'⟩⟩
  · refine (hbetween hnl hheld' hheld hversion.symm).imp Eq.symm ?_
    rintro ⟨m, hnm, hml, hnone⟩
    exact ⟨n, m, l, hnm, hml, Nat.le_trans hl (Nat.le_max_left i j), hnone, .inr ⟨hheld', hheld⟩⟩

/-! ## A version that is used again -/

/-- A document with a block, out of which the block is taken and then put back with another text. -/
def editing : List Action :=
  [.openDocument (.ofString "/p.mdx") "```ts\na\n```\n".toList,
    .change (.ofString "/p.mdx") [],
    .change (.ofString "/p.mdx") "```ts\nb\n```\n".toList]

/-- The file of the block with a text. -/
def blockDocument (text : String) : Document :=
  ⟨.ofString "/p.mdx.0._md_cb.ts", 1, text.toList ++ "\n\n;export \x7b\x7d;\n".toList⟩

/-- The two documents of the block have the same version, since there was none between them. -/
theorem none_between_blocks :
    let moment := (fresh {} {}).moment editing
    let held n := (moment n).store.held? (blockDocument "a").path
    (moment 1).Shows (blockDocument "a") ∧ (moment 3).Shows (blockDocument "b") ∧
      ∃ l m n, l < m ∧ m < n ∧ n ≤ 3 ∧ held m = none ∧
        (held l = some (blockDocument "a") ∧ held n = some (blockDocument "b") ∨
          held l = some (blockDocument "b") ∧ held n = some (blockDocument "a")) := by
  intro moment held
  have hfirst : (moment 1).Shows (blockDocument "a") :=
    .inl ⟨(blockDocument "a").path, by decide +kernel⟩
  have hsecond : (moment 3).Shows (blockDocument "b") :=
    .inl ⟨(blockDocument "b").path, by decide +kernel⟩
  have hne : blockDocument "b" ≠ blockDocument "a" := by decide +kernel
  exact ⟨hfirst, hsecond,
    (version_identifies_text {} {} editing hfirst hsecond rfl rfl Nat.one_ne_zero).resolve_left hne⟩

/-- **A version that is used again.** The file of the block has the same path and the same version
before and after the block was gone, and another text. -/
theorem version_used_again :
    let moment := (fresh {} {}).moment editing
    (moment 1).document? (blockDocument "a").path = some (blockDocument "a") ∧
      (moment 3).document? (blockDocument "a").path = some (blockDocument "b") ∧
      (blockDocument "a").version = (blockDocument "b").version ∧
      (blockDocument "a").version ≠ 0 ∧ (blockDocument "a").text ≠ (blockDocument "b").text := by
  decide +kernel

end Workspace

end HybridMarkup
