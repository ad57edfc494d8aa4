/-
Where an offset comes back to when it is followed into a generated document.

A source file follows an offset into the first generated document that has a place for it, and from
that place back again. Where the first answer on the way there is that of a copy, one comes back to
where one was, with one exception: if one was at the beginning of the copy, and something else that
is mapped ends in the generated text just where the copy begins, then that is asked first on the way
back, and it answers with its own end (`position_comes_back`). It is the seam between two spans that
touch on one side only, such as those around a comment in prose.

For this the document that was followed has to be found again by its path, which is a matter of the
store: it keeps what is written under the normal form of the path (`LawfulFileStore`).
-/
import HybridMarkup.Proofs.ArtifactNames
import HybridMarkup.Proofs.RoundTrip
import HybridMarkup.SourceFile

set_option autoImplicit false

namespace HybridMarkup

open Text

/-! ## First answers -/

namespace Mapping

variable {m : Mapping} {d : Direction} {offset offset' : Nat}

/-- What a mapping answers with it is itself asked about, from the other side. -/
theorem isSome_mapOffset_back (hordered : (m.target d).start ≤ (m.target d).stop)
    (h : m.mapOffset d offset = some offset') : (m.mapOffset d.back offset').isSome = true := by
  have hstart : (m.target d).touches (m.target d).start = true :=
    Span.touches_iff.2 ⟨Nat.le_refl _, hordered⟩
  unfold mapOffset at h ⊢
  rw [asked_back]
  cases hmode : m.mode with
  | totally =>
    simp only [hmode] at h
    split at h
    · simp [← Option.some.inj h]
    · split at h
      · dsimp only
        rw [← Option.some.inj h]
        split <;> simp
      · simp at h
  | offset =>
    simp only [hmode] at h
    split at h
    · have htouches : (m.target d).touches offset' = true := by
        rw [← Option.some.inj h]
        exact Span.touches_iff.2 ⟨by omega, Nat.min_le_right _ _⟩
      simp [htouches]
    · simp at h
  | expand =>
    simp only [hmode] at h
    split at h
    · simp [← Option.some.inj h, hstart]
    · simp at h

/-- There is an answer at the end of a span, in every mode. -/
theorem isSome_mapOffset_stop (hordered : (m.asked d).start ≤ (m.asked d).stop) :
    (m.mapOffset d (m.asked d).stop).isSome = true := by
  have htouches : (m.asked d).touches (m.asked d).stop = true :=
    Span.touches_iff.2 ⟨hordered, Nat.le_refl _⟩
  unfold mapOffset
  cases m.mode with
  | totally =>
    dsimp only
    split
    · rfl
    · simp
  | offset => simp [htouches]
  | expand => simp [htouches]

end Mapping

namespace SourceMap

variable {map : SourceMap} {o t : Nat} {front : List Mapping} {m : Mapping}

/-- The mapping `m` is the first that has a place for the source offset `o`; it is listed behind
`front`, and the place is `t`. -/
structure Answered (map : SourceMap) (o t : Nat) (front : List Mapping) (m : Mapping) : Prop where
  listed : ∃ behind, map.mappings = front ++ m :: behind
  silent : ∀ a ∈ front, a.mapOffset .sourceToMapped o = none
  answers : m.mapOffset .sourceToMapped o = some t

/-- A first place is the answer of some mapping. -/
theorem exists_answered (h : map.mappedOffset? o = some t) :
    ∃ front m, map.Answered o t front m := by
  obtain ⟨mappings⟩ := map
  replace h : (mappings.filterMap fun m => m.mapOffset .sourceToMapped o).head? = some t := h
  induction mappings with
  | nil => simp at h
  | cons a mappings ih =>
    cases hanswer : a.mapOffset .sourceToMapped o with
    | some t' =>
      rw [List.filterMap_cons_some (by exact hanswer), List.head?_cons] at h
      exact ⟨[], a, ⟨mappings, rfl⟩, fun _ hx => absurd hx List.not_mem_nil, hanswer.trans h⟩
    | none =>
      rw [List.filterMap_cons_none (by exact hanswer)] at h
      obtain ⟨front, m, ⟨behind, hlisted⟩, hsilent, hm⟩ := ih h
      refine ⟨a :: front, m, ⟨behind, congrArg (a :: ·) hlisted⟩, fun x hx => ?_, hm⟩
      rcases List.mem_cons.1 hx with rfl | hx
      · exact hanswer
      · exact hsilent x hx

/-- **A copied offset comes back to where it was**, unless the copy begins there and something that
is listed before ends where the copy is put. -/
theorem Clear.comes_back_iff (h : map.Clear) (hanswered : map.Answered o t front m)
    (hcopy : m.mode = .offset) :
    map.sourceOffset? t = some o ↔ m.source.start < o ∨ ∀ a ∈ front, a.mapped.stop ≠ t := by
  obtain ⟨⟨behind, hlisted⟩, hsilent, hanswer⟩ := hanswered
  have hm : m ∈ map.mappings := by
    rw [hlisted]
    exact List.mem_append_right _ List.mem_cons_self
  have hfront : ∀ a ∈ front, a ∈ map.mappings ∧ a.mapped.stop ≤ m.mapped.start := by
    intro a ha
    have hpairs := h.unhidden
    rw [hlisted] at hpairs
    refine ⟨?_, ((List.pairwise_append.1 hpairs).2.2 a ha m List.mem_cons_self hcopy).2⟩
    rw [hlisted]
    exact List.mem_append_left _ ha
  have htouches := Mapping.touches_of_mapOffset (h.ordered m hm _) hanswer
  rw [Mapping.mapOffset_copy hcopy htouches (h.target_length hm hcopy _) (h.target_ordered hm _)]
    at hanswer
  have ht : t = m.mapped.start + (o - m.source.start) := (Option.some.inj hanswer).symm
  obtain ⟨hstart, hstop⟩ : m.source.start ≤ o ∧ o ≤ m.source.stop := Span.touches_iff.1 htouches
  have hlength := h.equal m hm hcopy
  unfold Span.length at hlength
  have hordered : m.mapped.start ≤ m.mapped.stop := h.ordered m hm .mappedToSource
  have hall : map.sourceOffset? t
      = ((front ++ m :: behind).filterMap fun a => a.mapOffset .mappedToSource t).head? := by
    rw [← hlisted]
    rfl
  rw [hall]
  constructor
  · -- what ends there is asked first, and had it to do with the offset, it would have had a place
    refine fun hback => .inr fun a ha hends => ?_
    have hasked := Mapping.isSome_mapOffset_stop (h.ordered a (hfront a ha).1 .mappedToSource)
    obtain ⟨x, hx⟩ := Option.isSome_iff_exists.1 hasked
    rw [show (a.asked .mappedToSource).stop = t from hends] at hx
    rw [List.filterMap_append] at hback
    have hne : front.filterMap (fun a => a.mapOffset .mappedToSource t) ≠ [] :=
      List.ne_nil_of_mem (List.mem_filterMap.2 ⟨a, ha, hx⟩)
    rw [List.head?_append_of_ne_nil _ hne] at hback
    obtain ⟨b, hb, hanswers⟩ := List.mem_filterMap.1 (List.mem_of_head? hback)
    have hthere := Mapping.isSome_mapOffset_back (h.target_ordered (hfront b hb).1 _) hanswers
    change (b.mapOffset .sourceToMapped o).isSome = true at hthere
    rw [hsilent b hb] at hthere
    simp at hthere
  · intro hseam
    refine head?_filterMap_of_front (fun a ha => ?_) ?_
    · refine Option.eq_none_iff_forall_not_mem.2 fun x hx => ?_
      obtain ⟨hmem, hbefore⟩ := hfront a ha
      obtain ⟨_, hends⟩ := Span.touches_iff.1
        (Mapping.touches_of_mapOffset (h.ordered a hmem .mappedToSource) hx)
      change t ≤ a.mapped.stop at hends
      rcases hseam with hinside | hseam
      · omega
      · exact hseam a ha (by omega)
    · rw [Mapping.mapOffset_copy hcopy
        (Span.touches_iff.2 (show m.mapped.start ≤ t ∧ t ≤ m.mapped.stop by omega))
        (h.target_length hm hcopy _) (h.target_ordered hm _)]
      show some (m.source.start + (t - m.mapped.start)) = some o
      rw [Option.some.injEq]
      omega

end SourceMap

/-! ## Generated documents in a store -/

/-- A store that takes absolute paths only, and keeps what is written under their normal forms. -/
class LawfulFileStore (σ : Type) [FileStore σ] : Prop where
  write_ok : ∀ {store store' : σ} {path : Path} {text : Text} {document : Document},
    FileStore.write store path text = .ok (document, store') →
      path.isAbsolute = true ∧ document.path = path.normalize ∧ document.text = text

theorem Overlay.path_of_held {o : Overlay} {path : Path} {document : Document}
    (h : o.held? path = some document) : document.path = path := by
  unfold Overlay.held? at h
  have hfound := List.find?_some h
  simpa using hfound

theorem Overlay.write_ok {o o' : Overlay} {path : Path} {text : Text} {document : Document}
    (h : o.write path text = .ok (document, o')) :
    path.isAbsolute = true ∧ document.path = path.normalize ∧ document.text = text := by
  unfold Overlay.write at h
  split at h
  · next habsolute =>
    refine ⟨habsolute, ?_⟩
    dsimp only at h
    split at h
    · next held hheld =>
      split at h
      · next htext =>
        obtain ⟨rfl, _⟩ := Prod.mk.inj (Except.ok.inj h)
        exact ⟨Overlay.path_of_held hheld, htext⟩
      · obtain ⟨rfl, _⟩ := Prod.mk.inj (Except.ok.inj h)
        exact ⟨rfl, rfl⟩
    · obtain ⟨rfl, _⟩ := Prod.mk.inj (Except.ok.inj h)
      exact ⟨rfl, rfl⟩
  · simp at h

instance : LawfulFileStore Overlay := ⟨Overlay.write_ok⟩

theorem GuardedOverlay.write_ok {g g' : GuardedOverlay} {path : Path} {text : Text}
    {document : Document} (h : g.write path text = .ok (document, g')) :
    g.overlay.write path text = .ok (document, g'.overlay) := by
  unfold GuardedOverlay.write at h
  split at h
  · simp at h
  · cases hwrite : g.overlay.write path text with
    | error e => simp [hwrite, Except.map] at h
    | ok written =>
      simp only [hwrite, Except.map, Except.ok.injEq, Prod.mk.injEq] at h
      obtain ⟨rfl, rfl⟩ := h
      rfl

instance : LawfulFileStore GuardedOverlay :=
  ⟨fun h => Overlay.write_ok (GuardedOverlay.write_ok h)⟩

namespace SourceFile

section

variable {σ : Type} [FileStore σ] {source : Path} {a : Artifact} {artifacts : List Artifact}
  {store written store' : σ} {d : Document} {codes : List VirtualCode}

/-- Behind an artifact that is refused none is written. -/
theorem writeArtifacts_refused {e : StoreError}
    (hwrite : FileStore.write store ⟨a.fileName⟩ a.text = .error e) :
    writeArtifacts source (a :: artifacts) store = (.error e, store) := by
  rw [writeArtifacts, hwrite]

/-- Behind an artifact that is written the others are written to where it is. -/
theorem writeArtifacts_cons
    (hwrite : FileStore.write store ⟨a.fileName⟩ a.text = .ok (d, written))
    (hcodes : writeArtifacts source artifacts written = (.ok codes, store')) :
    writeArtifacts source (a :: artifacts) store
      = (.ok ({ kind := a.kind
                document := d
                sourcePath := source
                mappedPath := ⟨a.fileName⟩
                sourceMap := ⟨a.mappings⟩ } :: codes), store') := by
  rw [writeArtifacts, hwrite]
  dsimp only
  rw [hcodes]

/-- If all artifacts are written, the first one is, and then the others to where it is. -/
theorem exists_of_writeArtifacts_cons
    (h : writeArtifacts source (a :: artifacts) store = (.ok codes, store')) :
    ∃ d written rest, FileStore.write store ⟨a.fileName⟩ a.text = .ok (d, written) ∧
      writeArtifacts source artifacts written = (.ok rest, store') ∧
      codes = { kind := a.kind
                document := d
                sourcePath := source
                mappedPath := ⟨a.fileName⟩
                sourceMap := ⟨a.mappings⟩ } :: rest := by
  unfold writeArtifacts at h
  dsimp only at h
  split at h
  · simp at h
  · next d written hwrite =>
    split at h
    · next rest store'' hrest =>
      obtain ⟨hcodes, rfl⟩ := Prod.mk.inj h
      exact ⟨d, written, rest, hwrite, hrest, (Except.ok.inj hcodes).symm⟩
    · simp at h

/-- **What each write preserves** is preserved by writing artifacts, also if not all of them are
written. -/
theorem writeArtifacts_preserves {P : σ → Prop} (source : Path) (h : P store)
    (hstep : ∀ a ∈ artifacts, ∀ s d s', P s →
      FileStore.write s ⟨a.fileName⟩ a.text = .ok (d, s') → P s') :
    P (writeArtifacts source artifacts store).2 := by
  induction artifacts generalizing store with
  | nil => exact h
  | cons a artifacts ih =>
    obtain ⟨hfirst, hrest⟩ := List.forall_mem_cons.1 hstep
    rcases hwrite : FileStore.write store ⟨a.fileName⟩ a.text with e | ⟨d, written⟩
    · rwa [writeArtifacts_refused hwrite]
    · have hbehind := ih (hfirst store d written h hwrite) hrest
      rw [writeArtifacts, hwrite]
      dsimp only
      rcases hothers : writeArtifacts source artifacts written with ⟨e | codes, store'⟩
      · rwa [hothers] at hbehind
      · rwa [hothers] at hbehind

end

variable {σ : Type} [FileStore σ] [LawfulFileStore σ]

/-- A generated document holds an artifact. -/
structure Holds (source : Path) (a : Artifact) (c : VirtualCode) : Prop where
  absolute : (⟨a.fileName⟩ : Path).isAbsolute = true
  kind_eq : c.kind = a.kind
  path_eq : c.path = a.path
  text_eq : c.document.text = a.text
  source_eq : c.sourcePath = source
  map_eq : c.sourceMap = ⟨a.mappings⟩

theorem paths_of_holds {source : Path} {artifacts : List Artifact} {codes : List VirtualCode}
    (h : List.Forall₂ (Holds source) artifacts codes) :
    codes.map VirtualCode.path = artifacts.map Artifact.path := by
  induction h with
  | nil => rfl
  | cons hfirst _ ih => rw [List.map_cons, List.map_cons, hfirst.path_eq, ih]

theorem exists_of_holds {source : Path} {artifacts : List Artifact} {codes : List VirtualCode}
    (h : List.Forall₂ (Holds source) artifacts codes) {c : VirtualCode} (hc : c ∈ codes) :
    ∃ a ∈ artifacts, Holds source a c := by
  induction h with
  | nil => exact absurd hc List.not_mem_nil
  | @cons a _ _ _ hfirst _ ih =>
    rcases List.mem_cons.1 hc with rfl | hc
    · exact ⟨a, List.mem_cons_self, hfirst⟩
    · obtain ⟨b, hb, hholds⟩ := ih hc
      exact ⟨b, List.mem_cons_of_mem _ hb, hholds⟩

theorem writeArtifacts_ok {source : Path} {artifacts : List Artifact} :
    ∀ {store store' : σ} {codes : List VirtualCode},
      writeArtifacts source artifacts store = (.ok codes, store') →
        List.Forall₂ (Holds source) artifacts codes := by
  induction artifacts with
  | nil =>
    intro store store' codes h
    obtain ⟨h, _⟩ := Prod.mk.inj h
    rw [← Except.ok.inj h]
    exact .nil
  | cons a artifacts ih =>
    intro store store' codes h
    obtain ⟨d, written, rest, hwrite, hrest, rfl⟩ := exists_of_writeArtifacts_cons h
    obtain ⟨habsolute, hpath, htext⟩ := LawfulFileStore.write_ok hwrite
    exact .cons ⟨habsolute, rfl, hpath, htext, rfl, rfl⟩ (ih hrest)

/-- **What an update leaves is what the stored text gives.** -/
theorem update_ok {f f' : SourceFile} {store store' : σ}
    (h : f.update store = (.ok true, f', store')) :
    ∃ document : Document, FileStore.read? store f.path = some document ∧
      List.Forall₂ (Holds f.path)
        ((Parse.ofText f.options document.text).tree.artifacts f.path.spelling) f'.codes := by
  unfold update at h
  dsimp only at h
  split at h
  · simp at h
  · next document hread =>
    split at h
    · simp at h
    · refine ⟨document, hread, ?_⟩
      unfold rebuild at h
      dsimp only at h
      split at h
      · simp at h
      · next codes written hwrite =>
        obtain ⟨_, h⟩ := Prod.mk.inj h
        obtain ⟨rfl, _⟩ := Prod.mk.inj h
        exact writeArtifacts_ok hwrite

/-- Where no two generated documents have the same path, and all paths are in normal form, each is
found by its path. -/
theorem virtualCode?_path {f : SourceFile} (hnodup : (f.codes.map VirtualCode.path).Nodup)
    {c : VirtualCode} (hc : c ∈ f.codes) (hnormal : c.path.normalize = c.path) :
    f.virtualCode? c.path = some c := by
  unfold virtualCode?
  rw [hnormal]
  generalize f.codes = codes at hnodup hc
  induction codes with
  | nil => exact absurd hc List.not_mem_nil
  | cons first codes ih =>
    obtain ⟨hfirst, hrest⟩ := List.nodup_cons.1 hnodup
    rcases List.mem_cons.1 hc with rfl | hc
    · exact List.find?_cons_of_pos (beq_self_eq_true _)
    · have hne : first.path ≠ c.path := fun heq => hfirst (heq ▸ List.mem_map_of_mem hc)
      rw [List.find?_cons_of_neg (by simpa using hne)]
      exact ih hrest hc

/-- After an update a generated document is found by its path, and its map is that of an artifact
of the stored text. -/
theorem mem_codes_of_update {f f' : SourceFile} {store store' : σ}
    (h : f.update store = (.ok true, f', store')) {c : VirtualCode} (hc : c ∈ f'.codes) :
    f'.virtualCode? c.path = some c ∧ c.sourceMap.Clear := by
  obtain ⟨document, _, hholds⟩ := update_ok h
  obtain ⟨a, ha, hcode⟩ := exists_of_holds hholds hc
  have habsolute := Tree.isAbsolute_of_artifact ha hcode.absolute
  have hnodup : (f'.codes.map VirtualCode.path).Nodup := by
    rw [paths_of_holds hholds]
    exact Tree.artifacts_placed _ habsolute
  refine ⟨virtualCode?_path hnodup hc ?_, ?_⟩
  · rw [hcode.path_eq]
    exact Path.normalize_normalize _
  · rw [hcode.map_eq]
    exact (Parse.artifacts_clear f.options.dialect document.text f.path.spelling a ha).2

/-- **A copied offset is followed into a generated document and back.** If the first place that
the generated documents of an updated source file have for an offset is in a copy, then that place
is followed back to the offset; except for the offset with which the copy begins, if the text of
something that is mapped before ends where the copy is put. -/
theorem position_comes_back {f f' : SourceFile} {store store' : σ}
    (hupdate : f.update store = (.ok true, f', store')) {o t : Nat} {c : VirtualCode}
    (hat : f'.virtualCodeAt? o = some (c, t)) :
    ∃ front m, c.sourceMap.Answered o t front m ∧
      (m.mode = .offset →
        (f'.sourcePosition? c.path t = some o ↔
          m.source.start < o ∨ ∀ a ∈ front, a.mapped.stop ≠ t)) := by
  obtain ⟨c', hc, hplace⟩ := List.exists_of_findSome?_eq_some hat
  obtain ⟨t', ht, heq⟩ := Option.map_eq_some_iff.1 hplace
  obtain ⟨rfl, rfl⟩ := Prod.mk.inj heq
  obtain ⟨hfound, hclear⟩ := mem_codes_of_update hupdate hc
  obtain ⟨front, m, hanswered⟩ := SourceMap.exists_answered ht
  refine ⟨front, m, hanswered, fun hcopy => ?_⟩
  rw [sourcePosition?, hfound]
  exact hclear.comes_back_iff hanswered hcopy

/-- Prose in which a comment stands between two letters. -/
def commented : Overlay :=
  { documents := [{ path := .ofString "/p.md", version := 1, text := "a<!--c-->b".toList }] }

/-- The source file of that prose, before its first update. -/
def commentedFile : SourceFile := { path := .ofString "/p.md", options := { dialect := .markdown } }

/-- The place behind the second letter leads back to where it came from. -/
theorem position_comes_back_behind_comment :
    ∃ f' store' c, commentedFile.update commented = (.ok true, f', store') ∧
      f'.virtualCodeAt? 10 = some (c, 2) ∧ f'.sourcePosition? c.path 2 = some 10 := by
  have hupdate : (commentedFile.update commented).1 = .ok true := by decide +kernel
  have hplace : ((commentedFile.update commented).2.1.virtualCodeAt? 10).map
      (fun found => (found.2, found.1.sourceMap.mappings))
      = some (2, [⟨.offset, ⟨0, 1⟩, ⟨0, 1⟩⟩, ⟨.offset, ⟨9, 10⟩, ⟨1, 2⟩⟩]) := by decide +kernel
  obtain ⟨⟨c, t⟩, hat, hfound⟩ := Option.map_eq_some_iff.1 hplace
  obtain ⟨rfl, hmappings⟩ := Prod.mk.inj hfound
  have hresult : commentedFile.update commented
      = (.ok true, (commentedFile.update commented).2.1, (commentedFile.update commented).2.2) :=
    Prod.ext hupdate rfl
  refine ⟨_, _, c, hresult, hat, ?_⟩
  obtain ⟨front, m, ⟨⟨behind, hlisted⟩, _, _⟩, hback⟩ := position_comes_back hresult hat
  -- whichever of the two copies answers, it begins before
  have hm : m ∈ front ++ m :: behind := List.mem_append_right _ List.mem_cons_self
  rw [← hlisted, hmappings] at hm
  have hcopy : m.mode = .offset ∧ m.source.start < 10 := by
    rcases List.mem_cons.1 hm with rfl | hm
    · decide
    · rw [List.mem_singleton.1 hm]
      decide
  exact (hback hcopy.1).2 (.inl hcopy.2)

/-- **The seam.** The place of the second letter, which begins a copy, leads back to the end of the
first. -/
theorem position_drifts_behind_comment :
    ∃ f' store' c t, commentedFile.update commented = (.ok true, f', store') ∧
      f'.virtualCodeAt? 9 = some (c, t) ∧
      (∃ m ∈ c.sourceMap.mappings, m.mode = .offset ∧ m.source.touches 9 = true) ∧
      f'.sourcePosition? c.path t = some 1 := by
  have hupdate : (commentedFile.update commented).1 = .ok true := by decide +kernel
  have hplace : ((commentedFile.update commented).2.1.virtualCodeAt? 9).map (fun found =>
        (found.1.sourceMap.mappings.any fun m => m.mode = .offset ∧ m.source.touches 9,
          (commentedFile.update commented).2.1.sourcePosition? found.1.path found.2))
      = some (true, some 1) := by decide +kernel
  obtain ⟨⟨c, t⟩, hat, hfound⟩ := Option.map_eq_some_iff.1 hplace
  obtain ⟨hcopy, hback⟩ := Prod.mk.inj hfound
  obtain ⟨m, hm, htouches⟩ := List.any_eq_true.1 hcopy
  exact ⟨_, _, c, t, Prod.ext hupdate rfl, hat, ⟨m, hm, of_decide_eq_true htouches⟩, hback⟩

end SourceFile

end HybridMarkup
