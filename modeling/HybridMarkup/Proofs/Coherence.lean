/-
A workspace is coherent at all times.

Whatever an editor does, the documents in memory are the open ones and those that the source files
list, each source file holds what its document gives as it is now, and from the path of a generated
document the way leads back to the file that lists it (`Workspace.Coherent`). This takes that the
paths in use are apart: none of them is the path of a file that may be generated from another one
(`Apart`).

An action is about one path. It leaves in order what lies there and leaves all other paths alone
(`SettlesAt`), and as nothing that lies at one path lies at another one, all of them are in order
after it (`InOrder.step`), and so they are after every run (`inOrder_run`).
-/
import HybridMarkup.Proofs.Places
import HybridMarkup.Proofs.WorkspaceRuns

set_option autoImplicit false

namespace HybridMarkup

theorem Overlay.mem_paths (o : Overlay) (q : Path) :
    q ∈ o.paths ↔ ∃ d, o.held? q = some d := by
  rw [Overlay.paths, Path.sorted, List.mem_mergeSort, List.mem_map, ← Option.isSome_iff_exists,
    Overlay.held?, List.find?_isSome]
  simp

/-- On a disk without entries there is nothing to read. -/
theorem Disk.read?_eq_none {disk : Disk} (h : disk.entries = []) (p : Path) :
    disk.read? p = none := by
  have hget (names : List Text) (text : Text) : disk.get? names ≠ some (.file text) := by
    unfold get?
    rw [h, List.lookup_nil]
    dsimp only
    split <;> simp
  unfold read? read lookup
  cases disk.resolve p with
  | error fault => rfl
  | ok names =>
    dsimp only
    cases hentry : disk.get? names with
    | none => rfl
    | some entry =>
      cases entry with
      | file text => exact absurd hentry (hget names text)
      | directory => rfl

theorem SourceFile.Fresh.of_read {f : SourceFile} {o o' : Overlay} (h : f.Fresh o)
    (hread : o'.read? f.path = o.read? f.path) : f.Fresh o' := by
  intro hparse
  rw [hread]
  exact h hparse

/-- A path of a known dialect has a file name. -/
theorem Config.exists_fileName {config : Config} {p : Path} {options : ParseOptions}
    (h : config.parseOptions p = some options) : ∃ name, p.fileName? = some name := by
  obtain ⟨dialect, hdialect, -⟩ := Option.map_eq_some_iff.1 h
  obtain ⟨extension, hextension, -⟩ := Option.bind_eq_some_iff.1 hdialect
  obtain ⟨name, hname, -⟩ := Option.bind_eq_some_iff.1 hextension
  exact ⟨name, hname⟩

namespace Workspace

/-! ## Which documents are open -/

/-- The path an action is about. -/
def Action.path : Action → Path
  | .openDocument path _ | .change path _ | .update path | .close path => path

/-- The text that an action brings. -/
def Action.text? : Action → Option Text
  | .openDocument _ text | .change _ text => some text
  | .update _ | .close _ => none

/-- An action closes the document at a path. -/
def Action.Closes (q : Path) : Action → Prop
  | .close path => path.normalize = q
  | .openDocument _ _ | .change _ _ | .update _ => False

/-- An action opens the document at a path: it stores a text there and does not fail. -/
def Opens (w : Workspace) (q : Path) : Action → Prop
  | .openDocument path text => path.normalize = q ∧ ∃ f?, (w.openDocument path text).1 = .ok f?
  | .change path text => path.normalize = q ∧ ∃ f?, (w.change path text).1 = .ok f?
  | .update _ | .close _ => False

/-- A document is open after some actions if one of them has opened it and none has closed it
since. -/
def IsOpen (w : Workspace) (actions : List Action) (q : Path) : Prop :=
  ∃ before a behind, actions = before ++ a :: behind ∧ (w.run before).Opens q a ∧
    ∀ b ∈ behind, ¬ b.Closes q

theorem isOpen_snoc (w : Workspace) (actions : List Action) (a : Action) (q : Path) :
    w.IsOpen (actions ++ [a]) q ↔
      (w.run actions).Opens q a ∨ (w.IsOpen actions q ∧ ¬ a.Closes q) := by
  constructor
  · rintro ⟨before, b, behind, heq, hopens, hkept⟩
    rcases List.eq_nil_or_concat behind with rfl | ⟨behind, last, rfl⟩
    · obtain ⟨rfl, hlast⟩ := List.append_inj' heq rfl
      obtain rfl := List.singleton_inj.1 hlast
      exact .inl hopens
    · rw [List.concat_eq_append] at heq hkept
      rw [← List.cons_append, ← List.append_assoc] at heq
      obtain ⟨rfl, hlast⟩ := List.append_inj' heq rfl
      obtain rfl := List.singleton_inj.1 hlast
      refine .inr ⟨⟨before, b, behind, rfl, hopens, fun c hc => ?_⟩, ?_⟩
      · exact hkept c (List.mem_append_left _ hc)
      · exact hkept a (List.mem_append_right _ (List.mem_singleton_self a))
  · rintro (hopens | ⟨⟨before, b, behind, rfl, hopens, hkept⟩, hnot⟩)
    · exact ⟨actions, a, [], rfl, hopens, fun b hb => absurd hb List.not_mem_nil⟩
    · refine ⟨before, b, behind ++ [a], by simp, hopens, fun c hc => ?_⟩
      rcases List.mem_append.1 hc with hc | hc
      · exact hkept c hc
      · rwa [List.mem_singleton.1 hc]

/-! ## The property -/

/-- A workspace is coherent. The documents in memory are the open ones and those that the source
files list; a document that is listed is the one that is read; a source file that has parsed
anything holds the parse of the text that is read now, its version and its artifacts; and a
document that is listed is found with its source file from its path. -/
structure Coherent (config : Config) (isOpen : Path → Prop) (w : Workspace) : Prop where
  paths : ∀ q, q ∈ w.store.paths ↔ isOpen q ∨ ∃ c, w.Lists c ∧ c.path = q
  documents : ∀ c, w.Lists c → w.document? c.path = some c.document
  parses : ∀ f ∈ w.files, f.parse ≠ none → ∃ options d,
    config.parseOptions f.path = some options ∧ w.document? f.path = some d ∧
      f.parsedVersion = some d.version ∧ f.Reflects f.path options d.text
  sources : ∀ f ∈ w.files, ∀ c ∈ f.codes, w.sourceForVirtual? c.path = some (f, c)

/-- Paths that do not get into each other's way. They are in normal form, have no line feed, and
none may be generated from another one. -/
structure Apart (places : Path → Prop) : Prop where
  normal : ∀ p, places p → p.normalize = p
  noLineFeed : ∀ p, places p → '\n' ∉ p.spelling
  apart : ∀ p q, places p → places q → ¬ p.IsGeneratedFrom q

/-- All that lies at some paths is in order, and there is nothing elsewhere. -/
structure InOrder (config : Config) (places isOpen : Path → Prop) (w : Workspace) : Prop where
  config_eq : w.config = config
  found : ∀ f ∈ w.files, places f.path ∧ w.held? f.path = some f
  opened : ∀ q, isOpen q → places q
  scattered : ∀ q d, w.store.held? q = some d → ∃ p, places p ∧ (q = p ∨ q.IsGeneratedFrom p)
  tidy : ∀ p, places p → w.store.Tidy config p (isOpen p) (w.held? p)
  fresh : ∀ f ∈ w.files, f.Fresh w.store

variable {config : Config} {places isOpen : Path → Prop} {w w' : Workspace}

/-- The source file of a path in order. -/
theorem InOrder.settled (h : w.InOrder config places isOpen) {f : SourceFile} (hf : f ∈ w.files) :
    f.Settled config w.store f.path :=
  (h.tidy f.path (h.found f hf).1).file f (h.found f hf).2

/-- **A source file leads back to itself** from what it lists. -/
theorem InOrder.sourceForVirtual?_path (hplaces : Apart places)
    (h : w.InOrder config places isOpen) {f : SourceFile} (hf : f ∈ w.files) {c : VirtualCode}
    (hc : c ∈ f.codes) : w.sourceForVirtual? c.path = some (f, c) := by
  obtain ⟨hplace, hheld⟩ := h.found f hf
  have hnormal := hplaces.normal f.path hplace
  have hsettled := h.settled hf
  obtain ⟨text, hfits, hreflects⟩ := hsettled.inStep.reflects hc
  obtain ⟨habsolute, hendings⟩ := hreflects.placed hnormal
  obtain ⟨ending, hending, hpath⟩ := hendings c hc
  -- the path tells what it is of
  have hread : VirtualFile.ofPath? c.path = some ⟨c.kind, f.path⟩ := by
    obtain ⟨a, ha, hholds⟩ := SourceFile.exists_of_holds hreflects.holds hc
    obtain ⟨name, hname⟩ := Config.exists_fileName hsettled.known
    rw [hpath]
    refine VirtualFile.ofPath?_append habsolute hnormal hname ?_ hending fun index hkind => ?_
    · exact fun hline => hplaces.noLineFeed f.path hplace
        (Path.mem_of_mem_fileName? habsolute hnormal hname hline)
    · exact Parse.index_le_maxIndex hfits ha (hholds.kind_eq ▸ hkind)
  have hnodup : (f.codes.map VirtualCode.path).Nodup := by
    rw [SourceFile.paths_of_holds hreflects.holds]
    exact Tree.artifacts_placed _ habsolute
  have hcode := SourceFile.virtualCode?_path hnodup hc (hsettled.inStep.placed hc).1
  rw [sourceForVirtual?, hread, Option.bind_some, sourceFile?, hnormal, hheld, Option.bind_some,
    hcode]
  rfl

/-- **Where all is in order the workspace is coherent.** -/
theorem InOrder.coherent (hplaces : Apart places) (h : w.InOrder config places isOpen) :
    w.Coherent config isOpen := by
  have hlisted {c : VirtualCode} (hc : w.Lists c) : w.store.held? c.path = some c.document := by
    obtain ⟨f, hf, hc⟩ := hc
    exact (h.settled hf).held c hc
  refine ⟨fun q => ?_, fun c hc => ?_, fun f hf hparse => ?_, fun f hf c hc => ?_⟩
  · rw [Overlay.mem_paths]
    constructor
    · rintro ⟨d, hd⟩
      obtain ⟨p, hp, rfl | hgenerated⟩ := h.scattered q d hd
      · exact .inl ((h.tidy q hp).document.2 ⟨d, hd⟩)
      · obtain ⟨f, hf, c, hc, hpath⟩ := (h.tidy p hp).listed q d hgenerated hd
        exact .inr ⟨c, ⟨f, (mem_of_held? hf).1, hc⟩, hpath⟩
    · rintro (hopen | ⟨c, hc, rfl⟩)
      · exact (h.tidy q (h.opened q hopen)).document.1 hopen
      · exact ⟨c.document, hlisted hc⟩
  · obtain ⟨f, hf, hmem⟩ := hc
    rw [document?, Overlay.read?_eq, ((h.settled hf).inStep.placed hmem).1, hlisted ⟨f, hf, hmem⟩,
      Option.some_or]
  · obtain ⟨d, hd, hversion⟩ := h.fresh f hf hparse
    refine ⟨f.options, d, (h.settled hf).known, hd, hversion, ?_⟩
    cases (h.settled hf).inStep with
    | unparsed hnone _ => exact absurd hnone hparse
    | parsed text _ hreflects hfollows =>
      obtain ⟨v, d', hv, hd', -, htext⟩ := hfollows
      obtain rfl : d' = d := Option.some.inj (hd'.symm.trans hd)
      rw [htext (Option.some.inj (hv.symm.trans hversion))]
      exact hreflects
  · exact h.sourceForVirtual?_path hplaces hf hc

/-! ## What an action does -/

/-- Something that is done at a path leaves in order what lies there, and all other paths alone. -/
structure SettlesAt (config : Config) (p : Path) (isOpen : Prop) (w w' : Workspace) : Prop where
  config_eq : w'.config = w.config
  store : w.store.Settles config p isOpen (w'.held? p) w'.store
  others : ∀ q, q ≠ p → w'.held? q = w.held? q
  found : (∀ f ∈ w.files, w.held? f.path = some f) → ∀ f ∈ w'.files, w'.held? f.path = some f

theorem held?_dropFile (w : Workspace) (p q : Path) :
    (w.dropFile p).held? q = if q = p then none else w.held? q :=
  find?_dropped SourceFile.path w.files p q

theorem held?_putFile (w : Workspace) (f : SourceFile) (q : Path) :
    (w.putFile f).held? q = if q = f.path then some f else w.held? q :=
  find?_put SourceFile.path w.files f q

theorem found_dropFile (h : ∀ f ∈ w.files, w.held? f.path = some f) (p : Path) :
    ∀ f ∈ (w.dropFile p).files, (w.dropFile p).held? f.path = some f := by
  intro f hf
  obtain ⟨hf, hne⟩ := List.mem_filter.1 hf
  rw [held?_dropFile, if_neg (by simpa using hne)]
  exact h f hf

theorem found_putFile (h : ∀ f ∈ w.files, w.held? f.path = some f) (g : SourceFile) :
    ∀ f ∈ (w.putFile g).files, (w.putFile g).held? f.path = some f := by
  intro f hf
  rcases List.mem_cons.1 hf with rfl | hf
  · rw [held?_putFile, if_pos rfl]
  · obtain ⟨hf, hne⟩ := List.mem_filter.1 hf
    rw [held?_putFile, if_neg (by simpa using hne)]
    exact h f hf

section

variable {p : Path} (hnormal : p.normalize = p) {isOpenAt : Prop}
  {result : Except StoreError (Option SourceFile)}

include hnormal

/-- **An update** settles what lies at the path. Under an absolute path it does not fail. -/
theorem Updated.settlesAt (h : w.Updated p result w')
    (htidy : w.store.Tidy w.config p isOpenAt (w.held? p)) :
    w.SettlesAt w.config p isOpenAt w' ∧ (p.isAbsolute = true → ∃ f?, result = .ok f?) := by
  cases h with
  | unknown hknown =>
    refine ⟨⟨rfl, ⟨htidy, fun f hf => ?_, rfl, fun _ _ _ => rfl⟩, fun _ _ => rfl, id⟩,
      fun _ => ⟨none, rfl⟩⟩
    rw [(htidy.file f hf).known] at hknown
    contradiction
  | @known options made f store hknown hupdate =>
    -- without a source file the update begins with an empty one
    have htidy' : w.store.Tidy w.config p isOpenAt (some (w.fileAt p options)) := by
      unfold fileAt
      cases hheld : w.held? p with
      | none =>
        rw [hheld] at htidy
        exact htidy.new hknown
      | some g =>
        rw [hheld] at htidy
        exact htidy
    obtain ⟨hsettles, hok⟩ := htidy'.update hnormal hupdate
    have hpath : f.path = p := (hsettles.tidy.file f rfl).path_eq
    refine ⟨⟨rfl, ?_, fun q hq => ?_, fun hfound => ?_⟩, fun habsolute => ?_⟩
    · rw [held?_putFile, if_pos hpath.symm]
      exact hsettles
    · rw [held?_putFile, if_neg (hpath ▸ hq)]
      rfl
    · exact found_putFile (w := { w with store }) hfound f
    · obtain ⟨_, rfl⟩ := hok habsolute
      exact ⟨some f, rfl⟩

/-- **An opened document**: it is not stored and nothing has changed, or what lies at the path is
settled, and the document is open. -/
theorem Opened.settlesAt {text : Text} (h : w.Opened p text result w')
    (htidy : w.store.Tidy w.config p isOpenAt (w.held? p)) (hfits : text.Fits) :
    (w' = w ∧ ∃ e, result = .error e) ∨
      (w.SettlesAt w.config p True w' ∧ ∃ f?, result = .ok f?) := by
  cases h with
  | @refused e _ => exact .inl ⟨rfl, e, rfl⟩
  | @stored d store _ _ hwrite hupdated =>
    right
    obtain ⟨hstored, hdisk, hframe⟩ := htidy.write hnormal hfits hwrite
    obtain ⟨⟨hconfig, hsettles, hothers, hfound⟩, hok⟩ :=
      Updated.settlesAt hnormal (w := { w with store }) hupdated hstored
    refine ⟨⟨hconfig, ⟨hsettles.tidy, hsettles.fresh, hsettles.disk_eq.trans hdisk, ?_⟩, hothers,
      hfound⟩, hok (Overlay.write_ok hwrite).1⟩
    intro q hne hq
    exact (hsettles.frame q hne hq).trans (hframe q hne)

omit hnormal in
/-- **A closed document.** -/
theorem close_settlesAt (path : Path)
    (htidy : w.store.Tidy w.config path.normalize isOpenAt (w.held? path.normalize)) :
    w.SettlesAt w.config path.normalize False (w.close path).2 := by
  have hsettles := htidy.close (Path.normalize_normalize path)
  rw [close_eq]
  refine ⟨rfl, ?_, fun q hq => ?_, fun hfound => found_dropFile hfound path.normalize⟩
  · rw [held?_dropFile, if_pos rfl]
    exact hsettles
  · rw [held?_dropFile, if_neg hq]
    rfl

end

/-! ## What every run keeps -/

/-- **One step.** What is done at one of the paths keeps all of them in order. -/
theorem InOrder.step (hplaces : Apart places) (h : w.InOrder config places isOpen) {p : Path}
    (hp : places p) {isOpen' : Path → Prop} (hsettles : w.SettlesAt config p (isOpen' p) w')
    (hopen : ∀ q, q ≠ p → (isOpen' q ↔ isOpen q)) : w'.InOrder config places isOpen' := by
  have hfound := hsettles.found fun f hf => (h.found f hf).2
  -- what lies at another path is elsewhere
  have helsewhere {q r : Path} (hq : places q) (hne : q ≠ p) (hr : r = q ∨ r.IsGeneratedFrom q) :
      w'.store.held? r = w.store.held? r := by
    refine hsettles.store.frame r ?_ ?_
    · rintro rfl
      exact hr.elim (fun heq => hne heq.symm) (hplaces.apart r q hp hq)
    · intro hgenerated
      rcases hr with rfl | hr
      · exact hplaces.apart r p hq hp hgenerated
      · exact hne (hr.unique hgenerated)
  refine ⟨hsettles.config_eq.trans h.config_eq, fun f hf => ?_, fun q hq => ?_, fun q d hd => ?_,
    fun q hq => ?_, fun f hf => ?_⟩
  · refine ⟨?_, hfound f hf⟩
    by_cases hpath : f.path = p
    · rwa [hpath]
    · have hheld := hfound f hf
      rw [hsettles.others f.path hpath] at hheld
      exact (h.found f (mem_of_held? hheld).1).1
  · by_cases heq : q = p
    · rwa [heq]
    · exact h.opened q ((hopen q heq).1 hq)
  · by_cases heq : q = p
    · exact ⟨p, hp, .inl heq⟩
    · by_cases hgenerated : q.IsGeneratedFrom p
      · exact ⟨p, hp, .inr hgenerated⟩
      · rw [hsettles.store.frame q heq hgenerated] at hd
        exact h.scattered q d hd
  · by_cases heq : q = p
    · subst heq
      exact hsettles.store.tidy
    · rw [hsettles.others q heq]
      rw [propext (hopen q heq)]
      exact (h.tidy q hq).of_held (hplaces.normal q hq) hsettles.store.disk_eq fun r hr =>
        helsewhere hq heq hr
  · by_cases hpath : f.path = p
    · exact hsettles.store.fresh f (hpath ▸ hfound f hf)
    · have hheld := hfound f hf
      rw [hsettles.others f.path hpath] at hheld
      have hf := (mem_of_held? hheld).1
      obtain ⟨hplace, -⟩ := h.found f hf
      refine (h.fresh f hf).of_read ?_
      rw [Overlay.read?_eq, Overlay.read?_eq, hplaces.normal f.path hplace,
        helsewhere hplace hpath (.inl rfl), hsettles.store.disk_eq]

/-- Which documents are open behind an action. -/
def OpenBehind (w : Workspace) (isOpen : Path → Prop) (a : Action) (q : Path) : Prop :=
  w.Opens q a ∨ (isOpen q ∧ ¬ a.Closes q)

/-- **Every action** at one of the paths keeps all of them in order. -/
theorem InOrder.perform (hplaces : Apart places) (h : w.InOrder config places isOpen) {a : Action}
    (hplace : places a.path.normalize) (hfits : ∀ text ∈ a.text?, text.Fits) :
    (w.perform a).InOrder config places (w.OpenBehind isOpen a) := by
  obtain rfl := h.config_eq
  have hopenDocument (path : Path) (text : Text) (hplace : places path.normalize)
      (hfits : text.Fits) : (w.openDocument path text).2.InOrder w.config places
        (w.OpenBehind isOpen (.openDocument path text)) := by
    rcases (w.opened path text).settlesAt (Path.normalize_normalize path)
      (h.tidy path.normalize hplace) hfits with ⟨hsame, e, herror⟩ | ⟨hsettles, hok⟩
    · have hopen : w.OpenBehind isOpen (.openDocument path text) = isOpen := by
        funext q
        simp [OpenBehind, Opens, Action.Closes, herror]
      rw [hsame, hopen]
      exact h
    · refine h.step hplaces hplace ?_ fun q hq => ?_
      · have hopen : w.OpenBehind isOpen (.openDocument path text) path.normalize = True :=
          eq_true (.inl ⟨rfl, hok⟩)
        rw [hopen]
        exact hsettles
      · simp [OpenBehind, Opens, Action.Closes, Ne.symm hq]
  cases a with
  | openDocument path text => exact hopenDocument path text hplace (hfits text rfl)
  | change path text => exact hopenDocument path text hplace (hfits text rfl)
  | update path =>
    have hopen : w.OpenBehind isOpen (.update path) = isOpen := by
      funext q
      simp [OpenBehind, Opens, Action.Closes]
    rw [hopen]
    have hsettles := (w.updated path).settlesAt (Path.normalize_normalize path)
      (h.tidy path.normalize hplace)
    exact h.step hplaces hplace hsettles.1 fun q _ => Iff.rfl
  | close path =>
    refine h.step hplaces hplace (p := path.normalize) ?_ fun q hq => ?_
    · have hopen : w.OpenBehind isOpen (.close path) path.normalize = False := by
        simp [OpenBehind, Opens, Action.Closes]
      rw [hopen]
      exact w.close_settlesAt path (h.tidy path.normalize hplace)
    · simp [OpenBehind, Opens, Action.Closes, Ne.symm hq]

/-- In a workspace in which nothing has been done all paths are in order. -/
theorem inOrder_fresh {disk : Disk}
    (hdisk : ∀ path text, disk.read? path = some text → text.Fits) :
    (fresh config disk).InOrder config places fun _ => False := by
  have hnone (q : Path) (d : Document) : ¬ (fresh config disk).store.held? q = some d := by
    intro hd
    contradiction
  refine ⟨rfl, fun f hf => absurd hf List.not_mem_nil, fun q hq => hq.elim,
    fun q d hd => absurd hd (hnone q d), fun p _ => ?_, fun f hf => absurd hf List.not_mem_nil⟩
  refine ⟨⟨False.elim, fun ⟨d, hd⟩ => hnone p d hd⟩, fun d hd => absurd hd (hnone p d), hdisk p,
    fun f hf => ?_, fun q d _ hd => absurd hd (hnone q d)⟩
  contradiction

/-- **Every run** at the paths keeps all of them in order. -/
theorem inOrder_run (hplaces : Apart places) {disk : Disk}
    (hdisk : ∀ path text, disk.read? path = some text → text.Fits) (actions : List Action)
    (hactions : ∀ a ∈ actions, places a.path.normalize ∧ ∀ text ∈ a.text?, text.Fits) :
    ((fresh config disk).run actions).InOrder config places
      ((fresh config disk).IsOpen actions) := by
  induction actions using List.reverseRecOn with
  | nil =>
    have hopen : (fresh config disk).IsOpen [] = fun _ => False := by
      funext q
      simp [IsOpen]
    rw [hopen]
    exact inOrder_fresh hdisk
  | append_singleton actions a ih =>
    obtain ⟨hplace, hfits⟩ := hactions a (List.mem_append_right _ (List.mem_singleton_self a))
    have hbefore := ih fun b hb => hactions b (List.mem_append_left _ hb)
    have hopen : (fresh config disk).IsOpen (actions ++ [a])
        = ((fresh config disk).run actions).OpenBehind ((fresh config disk).IsOpen actions) a :=
      funext fun q => propext (isOpen_snoc _ actions a q)
    rw [run_snoc, hopen]
    exact hbefore.perform hplaces hplace hfits

/-! ## Coherence -/

/-- The paths of some actions do not get into each other's way: they have no line feed, and none is,
in normal form, that of a file generated from another one. -/
structure Action.Apart (actions : List Action) : Prop where
  noLineFeed : ∀ a ∈ actions, '\n' ∉ a.path.spelling
  apart : ∀ a ∈ actions, ∀ b ∈ actions, ¬ a.path.normalize.IsGeneratedFrom b.path.normalize

/-- The normal forms of these paths do not get into each other's way. -/
theorem Action.Apart.paths {actions : List Action} (h : Action.Apart actions) :
    Workspace.Apart fun q => ∃ a ∈ actions, a.path.normalize = q := by
  refine ⟨?_, ?_, ?_⟩
  · rintro _ ⟨a, -, rfl⟩
    exact Path.normalize_normalize a.path
  · rintro _ ⟨a, ha, rfl⟩
    exact fun hline => h.noLineFeed a ha (Path.mem_of_mem_normalize hline (by decide))
  · rintro _ _ ⟨a, ha, rfl⟩ ⟨b, hb, rfl⟩
    exact h.apart a ha b hb

/-- **A workspace is coherent at all times.** Whatever is opened, changed, updated and closed in a
workspace that was empty, and whether it fails or not, with every configuration and every disk: if
the paths do not get into each other's way, the workspace is coherent. A text is never longer than a
string can be. -/
theorem coherent_run (config : Config) (disk : Disk) (actions : List Action)
    (hdisk : ∀ path text, disk.read? path = some text → text.Fits)
    (htexts : ∀ a ∈ actions, ∀ text ∈ a.text?, text.Fits) (hapart : Action.Apart actions) :
    ((fresh config disk).run actions).Coherent config ((fresh config disk).IsOpen actions) :=
  (inOrder_run hapart.paths hdisk actions fun a ha => ⟨⟨a, ha, rfl⟩, htexts a ha⟩).coherent
    hapart.paths

/-- A document with a block is opened, another one is refused, since its path is relative, and the
block is taken out of the first one, whose path is spelled in another way. -/
def session : List Action :=
  [.openDocument (.ofString "/p.mdx") "```ts\na\n```\n".toList,
    .openDocument (.ofString "q.md") "a".toList,
    .change (.ofString "/d/../p.mdx") "b".toList]

/-- The workspace is coherent behind these actions, and the file of the block is gone. -/
theorem coherent_session :
    ((fresh {} {}).run session).Coherent {} ((fresh {} {}).IsOpen session) ∧
      ((fresh {} {}).run session).files.map (fun f => (f.path, f.codes.map VirtualCode.path)) =
        [(.ofString "/p.mdx", [.ofString "/p.mdx._mdx.jsx", .ofString "/p.mdx._mdx.md",
          .ofString "/p.mdx._index.ts"])] := by
  have hdisk (path : Path) (text : Text) (htext : ({} : Disk).read? path = some text) :
      text.Fits := by
    rw [Disk.read?_eq_none rfl] at htext
    contradiction
  have htexts : ∀ a ∈ session, ∀ text ∈ a.text?, text.Fits := by
    unfold Text.Fits
    decide
  -- no path is so much longer than another one
  have hlengths : ∀ a ∈ session, ∀ b ∈ session,
      a.path.normalize.spelling.length ≤ b.path.normalize.spelling.length + 2 := by decide
  have hapart : Action.Apart session :=
    ⟨by decide, fun a ha b hb h => Nat.not_lt.2 (hlengths a ha b hb) h.length_lt⟩
  exact ⟨coherent_run {} {} session hdisk htexts hapart, by decide +kernel⟩

end Workspace

end HybridMarkup
