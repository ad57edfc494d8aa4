/-
Where a question to a source map goes, and where the answer leads back to.

A copy is answered for by itself: whatever is listed before it lies elsewhere on both sides
(`Unhidden`), so for a span that covers something inside the copy, and for an offset strictly
inside, none of it has an answer (`first_span`, `first_offset`). At equal lengths the answer is the
asked span carried to the other side, and carrying it back undoes that (`carry_back`). Since the two
sides play symmetric parts, both are shown for either direction at once.

A span that is in no copy can only be answered by what is not a copy: by a whole in braces if it is
all of it, or by what a directive or a fence was expanded to.
-/
import HybridMarkup.Proofs.CopyOrder

set_option autoImplicit false

namespace HybridMarkup

open Text

/-! ## Parts of spans -/

namespace Span

variable {s r : Span} {text generated : Text}

theorem includes_iff : s.includes r = true ↔ s.start ≤ r.start ∧ r.stop ≤ s.stop := by
  simp [includes]

theorem touches_iff {offset : Nat} :
    s.touches offset = true ↔ s.start ≤ offset ∧ offset ≤ s.stop := by
  simp [touches]

/-- The span that lies in `s'` as `r` lies in `s`. -/
def carry (s s' r : Span) : Span :=
  ⟨s'.start + (r.start - s.start), s'.start + (r.stop - s.start)⟩

/-- What is carried to another span and back is where it was. -/
theorem carry_back {s' : Span} (hin : s.includes r = true) (hordered : r.start ≤ r.stop) :
    carry s' s (carry s s' r) = r := by
  obtain ⟨hstart, _⟩ := includes_iff.1 hin
  unfold carry
  dsimp only
  rw [Nat.add_sub_cancel_left, Nat.add_sub_cancel_left, Nat.add_sub_cancel' hstart,
    Nat.add_sub_cancel' (Nat.le_trans hstart hordered)]

theorem carry_includes {s' : Span} (hlength : s'.length = s.length) (hordered' : s'.start ≤ s'.stop)
    (hin : s.includes r = true) : s'.includes (carry s s' r) = true := by
  obtain ⟨hstart, hstop⟩ := includes_iff.1 hin
  unfold length at hlength
  refine includes_iff.2 ⟨Nat.le_add_right _ _, ?_⟩
  show s'.start + (r.stop - s.start) ≤ s'.stop
  omega

theorem Covers.carry {s' : Span} (h : r.Covers) (hin : s.includes r = true) :
    (carry s s' r).Covers := by
  obtain ⟨hstart, _⟩ := includes_iff.1 hin
  unfold Covers at h
  show s'.start + (r.start - s.start) < s'.start + (r.stop - s.start)
  omega

/-- A span inside another cuts out a part of what that one cuts out. -/
theorem Cuts.within (h : s.Cuts text) (hr : r.Cuts text) (hin : s.includes r = true) :
    ∃ u w, slice text s = u ++ (slice text r ++ w) ∧ r.start = s.start + size u := by
  obtain ⟨hstart, hstop⟩ := includes_iff.1 hin
  obtain ⟨a, b, c, htext, ha, hb⟩ := cuts_iff.1 h
  obtain ⟨a', b', c', htext', ha', hb'⟩ := cuts_iff.1 hr
  -- the outer span begins before the inner one, and ends behind it
  obtain ⟨u, rfl, hu⟩ := append_of_size_le (htext.symm.trans htext') (by omega)
  rw [size_append] at ha' hb'
  have hback : u ++ b' ++ c' = b ++ c := by rw [hu, List.append_assoc]
  obtain ⟨w, rfl, _⟩ := append_of_size_le hback (by rw [size_append]; omega)
  refine ⟨u, w, ?_, by omega⟩
  rw [htext, slice_eq ha hb, ← htext, htext', slice_eq (by rw [size_append]; exact ha')
    (by rw [size_append]; exact hb'), List.append_assoc]

/-- **Equal texts have equal parts at equal places.** -/
theorem Cuts.same_part {s' : Span} (h : s.Cuts text) (h' : s'.Cuts generated)
    (hsame : slice generated s' = slice text s) (hin : s.includes r = true) (hr : r.Cuts text) :
    (carry s s' r).Cuts generated ∧ slice generated (carry s s' r) = slice text r := by
  obtain ⟨u, w, hslice, hstart⟩ := h.within hr hin
  have hordered := hr.ordered
  have hcarry : carry s s' r = ofLength (s'.start + size u) (size (slice text r)) := by
    have hsize := hr.size_slice
    unfold length at hsize
    rw [carry, ofLength, hsize, Span.mk.injEq]
    omega
  rw [hcarry]
  exact h'.part (hsame.trans hslice)

end Span

/-! ## Single mappings -/

/-- The opposite direction. -/
def Direction.back : Direction → Direction
  | .sourceToMapped => .mappedToSource
  | .mappedToSource => .sourceToMapped

namespace Mapping

variable {m : Mapping} {d : Direction} {offset offset' : Nat} {r s : Span}

@[simp] theorem asked_back (m : Mapping) (d : Direction) : m.asked d.back = m.target d := by
  cases d <;> rfl

@[simp] theorem target_back (m : Mapping) (d : Direction) : m.target d.back = m.asked d := by
  cases d <;> rfl

/-- Only an offset in the asked span, its ends included, has an answer. -/
theorem touches_of_mapOffset (hordered : (m.asked d).start ≤ (m.asked d).stop)
    (h : m.mapOffset d offset = some offset') : (m.asked d).touches offset = true := by
  unfold mapOffset at h
  dsimp only at h
  split at h
  · split at h
    · next heq => exact Span.touches_iff.2 ⟨Nat.le_of_eq heq.symm, heq ▸ hordered⟩
    · split at h
      · next heq => exact Span.touches_iff.2 ⟨heq ▸ hordered, Nat.le_of_eq heq⟩
      · simp at h
  · split at h
    · assumption
    · simp at h
  · split at h
    · assumption
    · simp at h

/-- Only a span inside the asked one has an answer. -/
theorem includes_of_mapSpan (h : m.mapSpan d r = some s) : (m.asked d).includes r = true := by
  unfold mapSpan at h
  dsimp only at h
  split at h
  · split at h
    · next heq =>
      rw [heq]
      exact Span.includes_iff.2 ⟨Nat.le_refl _, Nat.le_refl _⟩
    · simp at h
  · split at h
    · assumption
    · simp at h
  · next hmode =>
    split at h
    · next hstart hstop =>
      simp only [mapOffset, hmode] at hstart hstop
      split at hstart
      · split at hstop
        · next htouches htouches' =>
          exact Span.includes_iff.2
            ⟨(Span.touches_iff.1 htouches).1, (Span.touches_iff.1 htouches').2⟩
        · simp at hstop
      · simp at hstart
    · simp at h

/-- What is not a copy answers with all of its other side. -/
theorem target_of_mapSpan (hmode : m.mode ≠ .offset) (h : m.mapSpan d r = some s) :
    m.target d = s ∧ (m.mode = .totally → m.asked d = r) := by
  unfold mapSpan at h
  dsimp only at h
  split at h
  · split at h
    · next heq => exact ⟨Option.some.inj h, fun _ => heq.symm⟩
    · simp at h
  · next hexpand =>
    split at h
    · exact ⟨Option.some.inj h, fun htotally => by simp [htotally] at hexpand⟩
    · simp at h
  · contradiction

/-- A copy answers for every offset that it touches. -/
theorem mapOffset_copy (hmode : m.mode = .offset) (htouches : (m.asked d).touches offset = true)
    (hlength : (m.target d).length = (m.asked d).length)
    (hordered : (m.target d).start ≤ (m.target d).stop) :
    m.mapOffset d offset = some ((m.target d).start + (offset - (m.asked d).start)) := by
  obtain ⟨hstart, hstop⟩ := Span.touches_iff.1 htouches
  unfold Span.length at hlength
  unfold mapOffset
  simp only [hmode, htouches, if_true]
  rw [Nat.min_eq_left (by omega)]

/-- A copy answers for a span inside it with the span carried to the other side. -/
theorem mapSpan_copy (hmode : m.mode = .offset) (hin : (m.asked d).includes r = true)
    (hr : r.start ≤ r.stop) (hlength : (m.target d).length = (m.asked d).length)
    (hordered : (m.target d).start ≤ (m.target d).stop) :
    m.mapSpan d r = some (Span.carry (m.asked d) (m.target d) r) := by
  obtain ⟨hstart, hstop⟩ := Span.includes_iff.1 hin
  have hfirst : (m.asked d).touches r.start = true :=
    Span.touches_iff.2 ⟨hstart, Nat.le_trans hr hstop⟩
  have hlast : (m.asked d).touches r.stop = true :=
    Span.touches_iff.2 ⟨Nat.le_trans hstart hr, hstop⟩
  simp only [mapSpan, hmode, mapOffset_copy hmode hfirst hlength hordered,
    mapOffset_copy hmode hlast hlength hordered]
  rfl

end Mapping

/-! ## Maps in which no copy is hidden -/

/-- Where nothing in front has an answer, the first answer is the own one. -/
theorem head?_filterMap_of_front {α β : Type} {f : α → Option β} {front behind : List α} {a : α}
    {b : β} (hfront : ∀ x ∈ front, f x = none) (ha : f a = some b) :
    ((front ++ a :: behind).filterMap f).head? = some b := by
  rw [List.filterMap_append, List.filterMap_eq_nil_iff.2 hfront, List.nil_append,
    List.filterMap_cons_some ha]
  rfl

namespace SourceMap

/-- A map in which no copy is hidden, no span is inverted, and copies are of equal length. -/
structure Clear (map : SourceMap) : Prop where
  unhidden : Unhidden map.mappings
  ordered : ∀ m ∈ map.mappings, ∀ d, (m.asked d).start ≤ (m.asked d).stop
  equal : ∀ m ∈ map.mappings, m.mode = .offset → m.mapped.length = m.source.length

variable {map : SourceMap} {m : Mapping} {d : Direction}

theorem Clear.target_ordered (h : map.Clear) (hm : m ∈ map.mappings) (d : Direction) :
    (m.target d).start ≤ (m.target d).stop := by
  rw [← Mapping.asked_back]
  exact h.ordered m hm d.back

theorem Clear.target_length (h : map.Clear) (hm : m ∈ map.mappings) (hmode : m.mode = .offset)
    (d : Direction) : (m.target d).length = (m.asked d).length := by
  have hequal := h.equal m hm hmode
  cases d
  · exact hequal
  · exact hequal.symm

/-- All that is listed before a copy is apart from it, on either side. -/
theorem Clear.split (h : map.Clear) (hm : m ∈ map.mappings) (hmode : m.mode = .offset) :
    ∃ front behind, map.mappings = front ++ m :: behind ∧
      ∀ a ∈ front, a ∈ map.mappings ∧ ∀ d, (a.asked d).Apart (m.asked d) := by
  obtain ⟨front, behind, hsplit⟩ := List.append_of_mem hm
  refine ⟨front, behind, hsplit, fun a ha => ⟨hsplit ▸ List.mem_append_left _ ha, fun d => ?_⟩⟩
  have hpairs := h.unhidden
  rw [hsplit] at hpairs
  obtain ⟨hsource, hmapped⟩ := (List.pairwise_append.1 hpairs).2.2 a ha m List.mem_cons_self hmode
  cases d
  · exact hsource
  · exact .inl hmapped

/-- **A copy answers for what is covered inside it.** -/
theorem Clear.first_span (h : map.Clear) (hm : m ∈ map.mappings) (hmode : m.mode = .offset)
    {r : Span} (hcovers : r.Covers) (hin : (m.asked d).includes r = true) :
    (map.mapSpans d r).head? = some (Span.carry (m.asked d) (m.target d) r) := by
  obtain ⟨front, behind, hsplit, hapart⟩ := h.split hm hmode
  rw [mapSpans, hsplit]
  refine head?_filterMap_of_front (fun a ha => ?_)
    (Mapping.mapSpan_copy hmode hin (Nat.le_of_lt hcovers) (h.target_length hm hmode d)
      (h.target_ordered hm d))
  -- what covers something is not inside of two spans that are apart
  refine Option.eq_none_iff_forall_not_mem.2 fun s hs => ?_
  obtain ⟨hstart, hstop⟩ := Span.includes_iff.1 (Mapping.includes_of_mapSpan hs)
  obtain ⟨hstart', hstop'⟩ := Span.includes_iff.1 hin
  unfold Span.Covers at hcovers
  rcases (hapart a ha).2 d with hbefore | hbehind
  · omega
  · omega

/-- A copy answers for the offsets strictly inside it. -/
theorem Clear.first_offset (h : map.Clear) (hm : m ∈ map.mappings) (hmode : m.mode = .offset)
    {offset : Nat} (hstart : (m.asked d).start < offset) (hstop : offset < (m.asked d).stop) :
    (map.mapOffsets d offset).head?
      = some ((m.target d).start + (offset - (m.asked d).start)) := by
  obtain ⟨front, behind, hsplit, hapart⟩ := h.split hm hmode
  rw [mapOffsets, hsplit]
  refine head?_filterMap_of_front (fun a ha => ?_)
    (Mapping.mapOffset_copy hmode
      (Span.touches_iff.2 ⟨Nat.le_of_lt hstart, Nat.le_of_lt hstop⟩)
      (h.target_length hm hmode d) (h.target_ordered hm d))
  refine Option.eq_none_iff_forall_not_mem.2 fun o ho => ?_
  obtain ⟨hmem, hboth⟩ := hapart a ha
  obtain ⟨hfirst, hlast⟩ := Span.touches_iff.1
    (Mapping.touches_of_mapOffset (h.ordered a hmem d) ho)
  rcases hboth d with hbefore | hbehind
  · omega
  · omega

/-- **A span inside a copy comes back** to where it was. -/
theorem Clear.span_back (h : map.Clear) (hm : m ∈ map.mappings) (hmode : m.mode = .offset)
    {r : Span} (hcovers : r.Covers) (hin : (m.asked d).includes r = true) :
    (map.mapSpans d.back (Span.carry (m.asked d) (m.target d) r)).head? = some r := by
  have hin' := Span.carry_includes (h.target_length hm hmode d) (h.target_ordered hm d) hin
  have hfirst := h.first_span (d := d.back) hm hmode (hcovers.carry hin)
    (by rw [Mapping.asked_back]; exact hin')
  rwa [Mapping.asked_back, Mapping.target_back,
    Span.carry_back hin (Nat.le_of_lt hcovers)] at hfirst

/-- An offset strictly inside a copy comes back. -/
theorem Clear.offset_back (h : map.Clear) (hm : m ∈ map.mappings) (hmode : m.mode = .offset)
    {offset : Nat} (hstart : (m.asked d).start < offset) (hstop : offset < (m.asked d).stop) :
    (map.mapOffsets d.back ((m.target d).start + (offset - (m.asked d).start))).head?
      = some offset := by
  have hlength := h.target_length hm hmode d
  unfold Span.length at hlength
  have hstart' : (m.asked d.back).start < (m.target d).start + (offset - (m.asked d).start) := by
    rw [Mapping.asked_back]
    omega
  have hstop' : (m.target d).start + (offset - (m.asked d).start) < (m.asked d.back).stop := by
    rw [Mapping.asked_back]
    omega
  have hfirst := h.first_offset hm hmode hstart' hstop'
  rwa [Mapping.asked_back, Mapping.target_back, Nat.add_sub_cancel_left,
    Nat.add_sub_cancel' (Nat.le_of_lt hstart)] at hfirst

end SourceMap

/-! ## Artifacts -/

/-- What is asked of a copy comes back from the other side, and what is in no copy has no place but
that of a whole. -/
structure RoundTrips (source generated : Text) (map : SourceMap) : Prop where
  /-- A span inside the text of a copy has a place in the source, where the same is written, and
  that place leads back to it. -/
  mappedSpan : ∀ m ∈ map.mappings, m.mode = .offset → ∀ r : Span, r.Covers →
    m.mapped.includes r = true →
    ∃ s, map.sourceSpan? r = some s ∧ m.source.includes s = true ∧ map.mappedSpan? s = some r ∧
      (r.Cuts generated → s.Cuts source ∧ slice source s = slice generated r)
  /-- The same from the other side. -/
  sourceSpan : ∀ m ∈ map.mappings, m.mode = .offset → ∀ s : Span, s.Covers →
    m.source.includes s = true →
    ∃ r, map.mappedSpan? s = some r ∧ m.mapped.includes r = true ∧ map.sourceSpan? r = some s ∧
      (s.Cuts source → r.Cuts generated ∧ slice generated r = slice source s)
  /-- An offset strictly inside the text of a copy goes to the source and back. -/
  mappedOffset : ∀ m ∈ map.mappings, m.mode = .offset → ∀ o, m.mapped.start < o →
    o < m.mapped.stop → ∃ o', map.sourceOffset? o = some o' ∧ map.mappedOffset? o' = some o
  /-- And from the source to the generated text and back. -/
  sourceOffset : ∀ m ∈ map.mappings, m.mode = .offset → ∀ o, m.source.start < o →
    o < m.source.stop → ∃ o', map.mappedOffset? o = some o' ∧ map.sourceOffset? o' = some o
  /-- A span in no copy has a place if it is a whole in braces, or inside of what was expanded. -/
  elsewhere : ∀ r : Span, r.Covers →
    (∀ m ∈ map.mappings, m.mode = .offset → m.mapped.includes r = false) →
    ∀ s, map.sourceSpan? r = some s → ∃ m ∈ map.mappings, m.source = s ∧
      (m.mode = .totally ∧ m.mapped = r ∧
          (∃ copy ∈ map.mappings, copy.mode = .offset ∧ Braces source s copy.source ∧
            slice generated r = '{' :: slice source copy.source ++ ['}']) ∨
        m.mode = .expand ∧ m.mapped.includes r = true)

theorem SourceMap.Clear.roundTrips {source generated : Text} {map : SourceMap} (h : map.Clear)
    (hcopied : Copied source generated map.mappings) : RoundTrips source generated map := by
  refine ⟨?_, ?_, ?_, ?_, ?_⟩
  · intro m hm hmode r hcovers hin
    have hcuts := hcopied.cuts m hm
    refine ⟨_, h.first_span (d := .mappedToSource) hm hmode hcovers hin, ?_,
      h.span_back (d := .mappedToSource) hm hmode hcovers hin, fun hr => ?_⟩
    · exact Span.carry_includes (h.equal m hm hmode).symm hcuts.1.ordered hin
    · exact hcuts.2.same_part hcuts.1 (hcopied.same m hm hmode).symm hin hr
  · intro m hm hmode s hcovers hin
    have hcuts := hcopied.cuts m hm
    refine ⟨_, h.first_span (d := .sourceToMapped) hm hmode hcovers hin, ?_,
      h.span_back (d := .sourceToMapped) hm hmode hcovers hin, fun hs => ?_⟩
    · exact Span.carry_includes (h.equal m hm hmode) hcuts.2.ordered hin
    · exact hcuts.1.same_part hcuts.2 (hcopied.same m hm hmode) hin hs
  · intro m hm hmode o hstart hstop
    exact ⟨_, h.first_offset (d := .mappedToSource) hm hmode hstart hstop,
      h.offset_back (d := .mappedToSource) hm hmode hstart hstop⟩
  · intro m hm hmode o hstart hstop
    exact ⟨_, h.first_offset (d := .sourceToMapped) hm hmode hstart hstop,
      h.offset_back (d := .sourceToMapped) hm hmode hstart hstop⟩
  · intro r hcovers hout s hs
    obtain ⟨m, hm, hanswer⟩ := List.mem_filterMap.1 (List.mem_of_head? hs)
    have hin : m.mapped.includes r = true := Mapping.includes_of_mapSpan hanswer
    have hmode : m.mode ≠ .offset := by
      intro hmode
      rw [hout m hm hmode] at hin
      simp at hin
    obtain ⟨hsource, hwhole⟩ := Mapping.target_of_mapSpan hmode hanswer
    change m.source = s at hsource
    refine ⟨m, hm, hsource, ?_⟩
    cases hkind : m.mode with
    | offset => exact absurd hkind hmode
    | expand => exact .inr ⟨rfl, hin⟩
    | totally =>
      have hmapped : m.mapped = r := hwhole hkind
      obtain ⟨copy, hcopy, hoffset, hbraces, _, hreads⟩ := hcopied.totals m hm hkind
      rw [hsource] at hbraces
      rw [hmapped] at hreads
      exact .inl ⟨rfl, hmapped, copy, hcopy, hoffset, hbraces, hreads⟩

/-- A map that is true to the source and hides no copy is clear. -/
theorem Copied.clear {source generated : Text} {mappings : List Mapping}
    (h : Copied source generated mappings) (hunhidden : Unhidden mappings) :
    SourceMap.Clear ⟨mappings⟩ := by
  refine ⟨hunhidden, fun m hm d => ?_, fun m hm hmode => ?_⟩
  · obtain ⟨hsource, hmapped⟩ := h.cuts m hm
    cases d
    · exact hsource.ordered
    · exact hmapped.ordered
  · obtain ⟨hsource, hmapped⟩ := h.cuts m hm
    rw [← hsource.size_slice, ← hmapped.size_slice, h.same m hm hmode]

theorem Parse.artifacts_clear (dialect : Dialect) (text fileName : Text) :
    ∀ a ∈ (Parse.draft dialect text).tree.artifacts fileName,
      Copied text a.text a.mappings ∧ SourceMap.Clear ⟨a.mappings⟩ := by
  have hsound := (Parse.tree_sound dialect text).1
  have hcopied := Tree.forall_artifacts (P := fun a => Copied text a.text a.mappings)
    (fun _ => TemplateArtifact.ofTree_copied hsound fileName)
    fun _ => ProseArtifacts.ofTree_copied hsound fileName
  intro a ha
  exact ⟨hcopied a ha, (hcopied a ha).clear (Parse.artifacts_unhidden dialect text fileName a ha)⟩

/-- **The maps of a document's artifacts lead back.** Whatever is covered by a copy, and whatever
offset lies strictly inside one, has a first place on the other side, and from there the first
place is where one came from; the texts at the two places are the same. A span that is in no copy
has a place only as all of an expression in its braces, or inside what a directive's name or the
fence of a block was expanded to. -/
theorem Parse.artifacts_round_trip (options : ParseOptions) (text fileName : Text) :
    ∀ a ∈ (Parse.ofText options text).tree.artifacts fileName,
      RoundTrips text a.text ⟨a.mappings⟩ := by
  intro a ha
  obtain ⟨hcopied, hclear⟩ := Parse.artifacts_clear options.dialect text fileName a ha
  exact hclear.roundTrips hcopied

/-- The script of an expression has a copy of its inside, which goes to the source and back, and so
does the offset in the middle of it. -/
theorem artifacts_round_trip_expression :
    ∃ a ∈ (Parse.ofText {} "\x7bxy\x7d".toList).tree.artifacts "a".toList,
      ∃ copy ∈ a.mappings, copy.mode = .offset ∧ copy.source = ⟨1, 3⟩ ∧
        (∃ r, SourceMap.mappedSpan? ⟨a.mappings⟩ ⟨1, 3⟩ = some r ∧
          SourceMap.sourceSpan? ⟨a.mappings⟩ r = some ⟨1, 3⟩) ∧
        ∃ o, SourceMap.mappedOffset? ⟨a.mappings⟩ 2 = some o ∧
          SourceMap.sourceOffset? ⟨a.mappings⟩ o = some 2 := by
  have hhead : (((Parse.ofText {} "\x7bxy\x7d".toList).tree.artifacts "a".toList).head?).bind
      (fun a => a.mappings.head?.map fun m => (m.mode, m.source)) = some (.offset, ⟨1, 3⟩) := by
    decide +kernel
  obtain ⟨a, ha, hfirst⟩ := Option.bind_eq_some_iff.1 hhead
  obtain ⟨copy, hcopy, hboth⟩ := Option.map_eq_some_iff.1 hfirst
  obtain ⟨hmode, hsource⟩ := Prod.mk.inj hboth
  have hcopy := List.mem_of_head? hcopy
  have htrips := Parse.artifacts_round_trip {} "\x7bxy\x7d".toList "a".toList a
    (List.mem_of_head? ha)
  obtain ⟨r, hr, _, hback, _⟩ := htrips.sourceSpan copy hcopy hmode ⟨1, 3⟩ (by decide)
    (by rw [hsource]; decide)
  exact ⟨a, List.mem_of_head? ha, copy, hcopy, hmode, hsource, ⟨r, hr, hback⟩,
    htrips.sourceOffset copy hcopy hmode 2 (by rw [hsource]; decide) (by rw [hsource]; decide)⟩

end HybridMarkup
