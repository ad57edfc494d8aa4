/-
What lies at the path of a document.

A workspace keeps a document at its path, and what is generated from it under that path with an
ending behind it (`Path.IsGeneratedFrom`). Paths that are made from different ones in this way are
different (`Path.IsGeneratedFrom.unique`), so all that lies at one path can be looked at by itself.
It is in order (`Overlay.Tidy`) if there is a document in memory just when it is open, if the
source file stands for a text that the document has had and still has if it has the same version,
and if the generated documents in memory are those that the file lists.

Whatever is done at a path leaves it in order and leaves all other places alone (`Overlay.Settles`),
and then the source file has parsed the document as it is.
-/
import HybridMarkup.Proofs.Freshness
import HybridMarkup.Proofs.GeneratedNames

set_option autoImplicit false

namespace HybridMarkup

/-! ## Generated paths -/

namespace Path

/-- The path of a file that may be generated from the document at another path. -/
def IsGeneratedFrom (q p : Path) : Prop :=
  ∃ kind ending, ArtifactKind.Ending kind ending ∧ q.spelling = p.spelling ++ ending

theorem IsGeneratedFrom.length_lt {q p : Path} (h : q.IsGeneratedFrom p) :
    p.spelling.length + 2 < q.spelling.length := by
  obtain ⟨kind, ending, hending, heq⟩ := h
  have hlong := hending.isEnding.long
  rw [heq, List.length_append]
  omega

theorem not_isGeneratedFrom_self (p : Path) : ¬ p.IsGeneratedFrom p := by
  intro h
  have hlength := h.length_lt
  omega

/-- **A generated path tells from which path it is.** -/
theorem IsGeneratedFrom.unique {q p p' : Path} (h : q.IsGeneratedFrom p)
    (h' : q.IsGeneratedFrom p') : p = p' := by
  obtain ⟨kind, ending, hending, heq⟩ := h
  obtain ⟨kind', ending', hending', heq'⟩ := h'
  have hlooks := hending.looksLikeEnding
  have hlooks' := hending'.looksLikeEnding
  obtain ⟨p⟩ := p
  obtain ⟨p'⟩ := p'
  rw [mk.injEq]
  -- what one of the paths has more than the other would be the front of an ending in an ending
  rcases List.append_eq_append_iff.1 (heq.symm.trans heq') with ⟨more, rfl, rfl⟩ | ⟨more, rfl, rfl⟩
  · rw [hlooks.whole hlooks', List.append_nil]
  · rw [hlooks'.whole hlooks, List.append_nil]

end Path

theorem Overlay.disk_removals (paths : List Path) (o : Overlay) :
    (paths.foldl (fun o path => (o.remove path).2) o).disk = o.disk :=
  List.foldlRecOn (motive := fun o' : Overlay => o'.disk = o.disk) paths _ rfl fun _ h _ _ => h

namespace SourceFile

/-- What a source file holds lies under generated paths, and only under an absolute path is there
anything. -/
theorem Reflects.placed {f : SourceFile} {path : Path} {options : ParseOptions} {text : Text}
    (h : f.Reflects path options text) (hnormal : path.normalize = path) :
    path.isAbsolute = true ∧ ∀ c ∈ f.codes, ∃ ending, c.kind.Ending ending ∧
      c.path = ⟨path.spelling ++ ending⟩ := by
  have hcode (c : VirtualCode) (hc : c ∈ f.codes) : path.isAbsolute = true ∧
      ∃ ending, c.kind.Ending ending ∧ c.path = ⟨path.spelling ++ ending⟩ := by
    obtain ⟨a, ha, hholds⟩ := exists_of_holds h.holds hc
    obtain ⟨ending, hending, hname⟩ := Tree.artifact_ending ha
    have habsolute := Tree.isAbsolute_of_artifact ha hholds.absolute
    refine ⟨habsolute, ending, hholds.kind_eq ▸ hending, ?_⟩
    rw [hholds.path_eq, Artifact.path, hname]
    exact Path.normalize_append_of_normal habsolute hnormal hending.isEnding
  refine ⟨?_, fun c hc => (hcode c hc).2⟩
  cases hcodes : f.codes with
  | nil =>
    have hholds := h.holds
    rw [hcodes, List.forall₂_nil_right_iff] at hholds
    exact absurd hholds (Tree.artifacts_ne_nil _ _)
  | cons c codes => exact (hcode c (hcodes ▸ List.mem_cons_self)).1

/-! ## Source files in step with a store -/

/-- A source file is in step with a store: it has parsed nothing, or it holds what a text gives that
the document has had, and still has if it has the same version. -/
inductive InStep (f : SourceFile) (o : Overlay) : Prop
  | unparsed (hparse : f.parse = none) (hcodes : f.codes = [])
  | parsed (text : Text) (hfits : text.Fits) (hreflects : f.Reflects f.path f.options text)
      (hfollows : f.Follows text o)

/-- What a source file has parsed is the document as it is. -/
def Fresh (f : SourceFile) (o : Overlay) : Prop :=
  f.parse ≠ none → ∃ d, o.read? f.path = some d ∧ f.parsedVersion = some d.version

variable {f f' : SourceFile} {o o' : Overlay}

theorem InStep.of_read (h : f.InStep o) (hfile : f'.unmarked = f.unmarked)
    (hread : o'.read? f.path = o.read? f.path) : f'.InStep o' := by
  obtain ⟨hpath, hoptions, -, hparse, hcodes⟩ := unmarked_eq_iff.1 hfile
  cases h with
  | unparsed hnone hnil => exact .unparsed (hparse.trans hnone) (hcodes.trans hnil)
  | parsed text hfits hreflects hfollows =>
    refine .parsed text hfits ?_ (hfollows.of_read hfile hread)
    rw [hpath, hoptions]
    exact hreflects.of_unmarked hfile

theorem InStep.write (h : f.InStep o) {path : Path} {text : Text} {d : Document}
    (hwrite : o.write path text = .ok (d, o')) : f.InStep o' := by
  cases h with
  | unparsed hparse hcodes => exact .unparsed hparse hcodes
  | parsed text hfits hreflects hfollows =>
    exact .parsed text hfits hreflects (hfollows.write hwrite)

/-- A source file that lists something holds what a text gives. -/
theorem InStep.reflects (h : f.InStep o) {c : VirtualCode} (hc : c ∈ f.codes) :
    ∃ text : Text, text.Fits ∧ f.Reflects f.path f.options text := by
  cases h with
  | unparsed _ hcodes =>
    rw [hcodes] at hc
    exact absurd hc List.not_mem_nil
  | parsed text hfits hreflects _ => exact ⟨text, hfits, hreflects⟩

theorem InStep.placed (h : f.InStep o) {c : VirtualCode} (hc : c ∈ f.codes) :
    c.path.normalize = c.path ∧ c.path ≠ f.path.normalize := by
  obtain ⟨text, -, hreflects⟩ := h.reflects hc
  exact placed_of_holds hreflects.holds hc

theorem InStep.isGeneratedFrom (h : f.InStep o) (hnormal : f.path.normalize = f.path)
    {c : VirtualCode} (hc : c ∈ f.codes) : c.path.IsGeneratedFrom f.path := by
  obtain ⟨text, -, hreflects⟩ := h.reflects hc
  obtain ⟨ending, hending, hpath⟩ := (hreflects.placed hnormal).2 c hc
  exact ⟨c.kind, ending, hending, congrArg Path.spelling hpath⟩

/-! ## What an update does to the store of an editor -/

theorem disk_writeArtifacts (source : Path) (artifacts : List Artifact) (o : Overlay) :
    (writeArtifacts source artifacts o).2.disk = o.disk :=
  writeArtifacts_preserves (P := fun o' : Overlay => o'.disk = o.disk) source rfl
    fun _ _ _ _ _ hsame hwrite => (Overlay.written_of_write hwrite).disk_eq.trans hsame

theorem disk_removeStale (old new : List VirtualCode) (o : Overlay) :
    (removeStale old new o).disk = o.disk := by
  have hremoved := Overlay.disk_removals ((old.filter fun c =>
    !(new.map VirtualCode.path).contains c.path).map VirtualCode.path) o
  rwa [List.foldl_map] at hremoved

/-- Only under a relative path is an artifact refused, and then none is written. -/
theorem writeArtifacts_error {path : Path} {t : Tree} {e : StoreError}
    (h : writeArtifacts path (t.artifacts path.spelling) o = (.error e, o')) :
    path.isAbsolute = false ∧ o' = o := by
  by_cases habsolute : path.isAbsolute = true
  · obtain ⟨codes, o'', hwrite, -⟩ := writeArtifacts_overlay path
      (fun a ha => Tree.isAbsolute_artifact habsolute ha) (t.artifacts_placed habsolute) o
    rw [h] at hwrite
    simp at hwrite
  · refine ⟨Bool.eq_false_iff.2 habsolute, ?_⟩
    cases hlist : t.artifacts path.spelling with
    | nil => exact absurd hlist (t.artifacts_ne_nil _)
    | cons a artifacts =>
      have hrelative : ¬ (⟨a.fileName⟩ : Path).isAbsolute = true := fun hname =>
        habsolute (Tree.isAbsolute_of_artifact (hlist ▸ List.mem_cons_self) hname)
      have hrefused : FileStore.write o ⟨a.fileName⟩ a.text = .error (.relativePath ⟨a.fileName⟩) :=
        if_neg hrelative
      rw [hlist, writeArtifacts_refused hrefused] at h
      exact (Prod.mk.inj h).2.symm

variable {result : Except StoreError Bool}

theorem path_of_update (hupdate : f.update o = (result, f', o')) :
    f'.path = f.path ∧ f'.options = f.options := by
  cases outcome_of_update hupdate <;> exact ⟨rfl, rfl⟩

/-- Under an absolute path an update does not fail. -/
theorem ok_of_update (hupdate : f.update o = (result, f', o')) (h : f.path.isAbsolute = true) :
    ∃ made, result = .ok made := by
  cases outcome_of_update hupdate with
  | gone | seen | rebuilt => exact ⟨_, rfl⟩
  | failed _ _ hwrite =>
    rw [(writeArtifacts_error hwrite).1] at h
    contradiction

theorem disk_update (hupdate : f.update o = (result, f', o')) : o'.disk = o.disk := by
  cases outcome_of_update hupdate with
  | gone | seen => rfl
  | failed _ _ hwrite => rw [(writeArtifacts_error hwrite).2]
  | @rebuilt d codes written _ _ hwrite =>
    have hwritten := disk_writeArtifacts f.path (f.artifactsOf d.text) o
    rw [hwrite] at hwritten
    exact (disk_removeStale f.codes codes written).trans hwritten

/-- **An update replaces the generated documents**, and changes nothing else in memory. -/
theorem replaced_update (hupdate : f.update o = (result, f', o'))
    (hnormal : ∀ c ∈ f.codes, c.path.normalize = c.path)
    (hheld : ∀ c ∈ f.codes, o.held? c.path = some c.document) :
    o.Replaced o' f.codes f'.codes ∧ o'.disk = o.disk := by
  have hsame : o.Replaced o f.codes f.codes :=
    ⟨hheld, fun c hc hnot => absurd (List.mem_map_of_mem hc) hnot, fun _ _ _ => rfl⟩
  refine ⟨?_, disk_update hupdate⟩
  cases outcome_of_update hupdate with
  | gone | seen => exact hsame
  | failed _ _ hwrite =>
    obtain ⟨-, rfl⟩ := writeArtifacts_error hwrite
    exact hsame
  | rebuilt _ _ hwrite => exact (holds_of_writeArtifacts hwrite).replaced hnormal

/-- **An update brings a source file up to date**, and keeps it in step. -/
theorem InStep.update (h : f.InStep o) (hupdate : f.update o = (result, f', o'))
    (hnormal : f.path.normalize = f.path) (hfits : ∀ d, o.read? f.path = some d → d.text.Fits) :
    f'.InStep o' ∧ f'.Fresh o' := by
  have hread : o'.read? f.path = o.read? f.path := by
    have hread := read?_update f o fun c hc => h.placed hc
    rw [hupdate] at hread
    exact hread
  obtain ⟨hpath, -⟩ := path_of_update hupdate
  have hinStep : f'.InStep o' := by
    cases outcome_of_update hupdate with
    | gone | seen | failed => exact h.of_read rfl hread
    | @rebuilt d _ _ hd _ hwrite =>
      refine .parsed d.text (hfits d hd) (reflects_built hwrite) ?_
      exact ⟨d.version, d, rfl, hread.trans hd, Nat.le_refl _, fun _ => rfl⟩
  refine ⟨hinStep, fun hparse => ?_⟩
  cases hinStep with
  | unparsed hnone _ => exact absurd hnone hparse
  | parsed text _ hreflects hfollows =>
    obtain ⟨v, d, hv, hd, -⟩ := hfollows
    refine ⟨d, hd, ?_⟩
    -- what holds something has an absolute path, and so the update has not failed
    have habsolute := (hreflects.placed (by rw [hpath, hnormal])).1
    obtain ⟨made, rfl⟩ := ok_of_update hupdate (hpath ▸ habsolute)
    exact parsedVersion_update hupdate hread (hpath ▸ hd)

end SourceFile

/-! ## What lies at a path -/

/-- The source file of a path is in step with the store, which has what the file lists. -/
structure SourceFile.Settled (config : Config) (o : Overlay) (p : Path) (f : SourceFile) :
    Prop where
  path_eq : f.path = p
  known : config.parseOptions p = some f.options
  inStep : f.InStep o
  held : ∀ c ∈ f.codes, o.held? c.path = some c.document

theorem SourceFile.Settled.isGeneratedFrom {config : Config} {o : Overlay} {p : Path}
    {f : SourceFile} (h : f.Settled config o p) (hnormal : p.normalize = p) {c : VirtualCode}
    (hc : c ∈ f.codes) : c.path.IsGeneratedFrom p := by
  have hgenerated := h.inStep.isGeneratedFrom (by rw [h.path_eq, hnormal]) hc
  rwa [h.path_eq] at hgenerated

namespace Overlay

/-- What lies at a path is in order: the document, which is in memory if it is open, the source
file, and what is generated, which is in memory if the source file lists it. -/
structure Tidy (config : Config) (p : Path) (isOpen : Prop) (file? : Option SourceFile)
    (o : Overlay) : Prop where
  document : isOpen ↔ ∃ d, o.held? p = some d
  fits : ∀ d, o.held? p = some d → d.text.Fits
  onDisk : ∀ text, o.disk.read? p = some text → text.Fits
  file : ∀ f ∈ file?, f.Settled config o p
  listed : ∀ q d, q.IsGeneratedFrom p → o.held? q = some d →
    ∃ f ∈ file?, ∃ c ∈ f.codes, c.path = q

/-- Something that is done at a path leaves in order what lies there, with a source file that has
parsed the document as it is, and leaves alone what lies elsewhere. -/
structure Settles (config : Config) (p : Path) (isOpen : Prop) (file? : Option SourceFile)
    (o o' : Overlay) : Prop where
  tidy : o'.Tidy config p isOpen file?
  fresh : ∀ f ∈ file?, f.Fresh o'
  disk_eq : o'.disk = o.disk
  frame : ∀ q, q ≠ p → ¬ q.IsGeneratedFrom p → o'.held? q = o.held? q

section

variable {o o' : Overlay} {old new : List VirtualCode} {q : Path}

/-- Where none of the old and the new documents is, nothing changes. -/
theorem Replaced.elsewhere (h : o.Replaced o' old new) (hold : ∀ c ∈ old, c.path ≠ q)
    (hnew : ∀ c ∈ new, c.path ≠ q) : o'.held? q = o.held? q := by
  apply h.frame
  · intro hq
    obtain ⟨c, hc, heq⟩ := List.mem_map.1 hq
    exact hold c hc heq
  · intro hq
    obtain ⟨c, hc, heq⟩ := List.mem_map.1 hq
    exact hnew c hc heq

/-- Where only the old documents were, there are only the new ones. -/
theorem Replaced.listed (h : o.Replaced o' old new) {d : Document}
    (hbefore : o.held? q = some d → ∃ c ∈ old, c.path = q) (hd : o'.held? q = some d) :
    ∃ c ∈ new, c.path = q := by
  by_contra hunlisted
  have hnew : q ∉ new.map VirtualCode.path := fun hq => hunlisted (List.mem_map.1 hq)
  by_cases hold : q ∈ old.map VirtualCode.path
  · obtain ⟨c, hc, rfl⟩ := List.mem_map.1 hold
    rw [h.gone c hc hnew] at hd
    contradiction
  · rw [h.frame q hold hnew] at hd
    exact hold (List.mem_map.2 (hbefore hd))

end

section

variable {config : Config} {p : Path} {isOpen : Prop} {file? : Option SourceFile}
  {f f' : SourceFile} {o o' : Overlay}

/-- A path with a known dialect at which there is no source file may as well have an empty one. -/
theorem Tidy.new (h : o.Tidy config p isOpen none) {options : ParseOptions}
    (hknown : config.parseOptions p = some options) :
    o.Tidy config p isOpen (some { path := p, options }) := by
  refine { h with file := fun f hf => ?_, listed := fun q d hq hd => ?_ }
  · obtain rfl := Option.some.inj hf
    exact ⟨rfl, hknown, .unparsed rfl rfl, fun c hc => absurd hc List.not_mem_nil⟩
  · obtain ⟨f, hf, -⟩ := h.listed q d hq hd
    contradiction

variable (hnormal : p.normalize = p)

include hnormal

theorem Tidy.read_fits (h : o.Tidy config p isOpen file?) {d : Document} (hd : o.read? p = some d) :
    d.text.Fits := by
  rw [read?_eq, hnormal] at hd
  rcases Option.or_eq_some_iff.1 hd with hheld | ⟨-, hdisk⟩
  · exact h.fits d hheld
  · obtain ⟨text, htext, rfl⟩ := Option.map_eq_some_iff.1 hdisk
    exact h.onDisk text htext

/-- **What lies at a path depends on nothing else in the store.** -/
theorem Tidy.of_held (h : o.Tidy config p isOpen file?) (hdisk : o'.disk = o.disk)
    (hheld : ∀ q, q = p ∨ q.IsGeneratedFrom p → o'.held? q = o.held? q) :
    o'.Tidy config p isOpen file? := by
  have hplace := hheld p (.inl rfl)
  refine ⟨?_, ?_, ?_, fun f hf => ?_, fun q d hq hd => ?_⟩
  · rw [hplace]
    exact h.document
  · rw [hplace]
    exact h.fits
  · rw [hdisk]
    exact h.onDisk
  · have hsettled := h.file f hf
    refine { hsettled with inStep := ?_, held := fun c hc => ?_ }
    · refine hsettled.inStep.of_read rfl ?_
      rw [read?_eq, read?_eq, hsettled.path_eq, hnormal, hplace, hdisk]
    · rw [hheld c.path (.inr (hsettled.isGeneratedFrom hnormal hc))]
      exact hsettled.held c hc
  · rw [hheld q (.inr hq)] at hd
    exact h.listed q d hq hd

/-! ## What is done at a path -/

/-- **A document is stored.** -/
theorem Tidy.write (h : o.Tidy config p isOpen file?) {text : Text} {d : Document}
    (hfits : text.Fits) (hwrite : o.write p text = .ok (d, o')) :
    o'.Tidy config p True file? ∧ o'.disk = o.disk ∧ ∀ q, q ≠ p → o'.held? q = o.held? q := by
  have hwritten := written_of_write hwrite
  have htext : d.text = text := (write_ok hwrite).2.2
  have hheld (q : Path) := hwritten.held?_eq q
  rw [hnormal] at hheld
  have hplace : o'.held? p = some d := by rw [hheld, if_pos rfl]
  have hframe (q : Path) (hq : q ≠ p) : o'.held? q = o.held? q := by rw [hheld, if_neg hq]
  refine ⟨⟨⟨fun _ => ⟨d, hplace⟩, fun _ => trivial⟩, fun d' hd' => ?_, ?_, fun f hf => ?_, ?_⟩,
    hwritten.disk_eq, hframe⟩
  · obtain rfl := Option.some.inj (hplace.symm.trans hd')
    rwa [htext]
  · rw [hwritten.disk_eq]
    exact h.onDisk
  · have hsettled := h.file f hf
    refine { hsettled with inStep := hsettled.inStep.write hwrite, held := fun c hc => ?_ }
    have hne : c.path ≠ p := fun heq =>
      Path.not_isGeneratedFrom_self p (heq ▸ hsettled.isGeneratedFrom hnormal hc)
    rw [hframe _ hne]
    exact hsettled.held c hc
  · intro q d' hq hd'
    have hne : q ≠ p := fun heq => Path.not_isGeneratedFrom_self p (heq ▸ hq)
    rw [hframe q hne] at hd'
    exact h.listed q d' hq hd'

/-- **A source file is updated.** Under an absolute path that does not fail. -/
theorem Tidy.update (h : o.Tidy config p isOpen (some f)) {result : Except StoreError Bool}
    (hupdate : f.update o = (result, f', o')) :
    o.Settles config p isOpen (some f') o' ∧
      (p.isAbsolute = true → ∃ made, result = .ok made) := by
  have hsettled := h.file f rfl
  have hfile : f.path.normalize = f.path := by rw [hsettled.path_eq, hnormal]
  obtain ⟨hinStep, hfresh⟩ := hsettled.inStep.update hupdate hfile fun d hd =>
    h.read_fits hnormal (hsettled.path_eq ▸ hd)
  obtain ⟨hpath, hoptions⟩ := SourceFile.path_of_update hupdate
  obtain ⟨hreplaced, hdisk⟩ := SourceFile.replaced_update hupdate
    (fun c hc => (hsettled.inStep.placed hc).1) hsettled.held
  have hsettled' : f'.Settled config o' p :=
    ⟨hpath.trans hsettled.path_eq, hoptions ▸ hsettled.known, hinStep, hreplaced.held⟩
  -- what changes is generated from the path, and the path itself is not
  have hframe (q : Path) (hq : ¬ q.IsGeneratedFrom p) : o'.held? q = o.held? q :=
    hreplaced.elsewhere (fun c hc heq => hq (heq ▸ hsettled.isGeneratedFrom hnormal hc))
      fun c hc heq => hq (heq ▸ hsettled'.isGeneratedFrom hnormal hc)
  have hplace := hframe p (Path.not_isGeneratedFrom_self p)
  refine ⟨⟨⟨?_, ?_, ?_, fun g hg => ?_, fun q d hq hd => ?_⟩, fun g hg => ?_, hdisk,
    fun q _ hq => hframe q hq⟩, fun habsolute => ?_⟩
  · rw [hplace]
    exact h.document
  · rw [hplace]
    exact h.fits
  · rw [hdisk]
    exact h.onDisk
  · obtain rfl := Option.some.inj hg
    exact hsettled'
  · refine ⟨f', rfl, hreplaced.listed (fun hbefore => ?_) hd⟩
    obtain ⟨g, hg, hlisted⟩ := h.listed q d hq hbefore
    obtain rfl := Option.some.inj hg
    exact hlisted
  · obtain rfl := Option.some.inj hg
    exact hfresh
  · exact SourceFile.ok_of_update hupdate (hsettled.path_eq ▸ habsolute)

/-- The paths of what is generated and of the document itself are in normal form. -/
theorem Tidy.mem_closing (h : o.Tidy config p isOpen file?) (q : Path) :
    q ∈ (((file?.map SourceFile.codes).getD []).map VirtualCode.path ++ [p]).map Path.normalize ↔
      q = p ∨ ∃ f ∈ file?, ∃ c ∈ f.codes, c.path = q := by
  rw [List.map_append, List.mem_append, List.map_singleton, List.mem_singleton, hnormal, or_comm]
  refine or_congr Iff.rfl ?_
  cases file? with
  | none => simp
  | some f =>
    have hplaced (c : VirtualCode) (hc : c ∈ f.codes) : c.path.normalize = c.path :=
      ((h.file f rfl).inStep.placed hc).1
    rw [Option.map_some, Option.getD_some, List.map_map, List.mem_map]
    constructor
    · rintro ⟨c, hc, rfl⟩
      exact ⟨f, rfl, c, hc, (hplaced c hc).symm⟩
    · rintro ⟨g, hg, c, hc, rfl⟩
      obtain rfl := Option.some.inj hg
      exact ⟨c, hc, hplaced c hc⟩

/-- **A document is closed**, with what was generated from it. -/
theorem Tidy.close (h : o.Tidy config p isOpen file?) :
    o.Settles config p False none
      ((((file?.map SourceFile.codes).getD []).map VirtualCode.path ++ [p]).foldl
        (fun o path => (o.remove path).2) o) := by
  have hheld (q : Path) := (held?_removals _ o q).trans (if_congr (h.mem_closing hnormal q) rfl rfl)
  have hdisk := disk_removals
    (((file?.map SourceFile.codes).getD []).map VirtualCode.path ++ [p]) o
  have hgone (d : Document) : ¬ (((((file?.map SourceFile.codes).getD []).map VirtualCode.path
      ++ [p]).foldl (fun o path => (o.remove path).2) o).held? p = some d) := by
    rw [hheld, if_pos (.inl rfl)]
    simp
  refine ⟨⟨⟨False.elim, fun ⟨d, hd⟩ => hgone d hd⟩, fun d hd => absurd hd (hgone d), ?_, ?_, ?_⟩,
    ?_, hdisk, fun q hne hq => ?_⟩
  · rw [hdisk]
    exact h.onDisk
  · intro f hf
    contradiction
  · intro q d hq hd
    rw [hheld] at hd
    split at hd
    · contradiction
    · next hkept => exact absurd (.inr (h.listed q d hq hd)) hkept
  · intro f hf
    contradiction
  · rw [hheld, if_neg]
    rintro (heq | ⟨f, hf, c, hc, rfl⟩)
    · exact hne heq
    · exact hq ((h.file f hf).isGeneratedFrom hnormal hc)

end

end Overlay

end HybridMarkup
