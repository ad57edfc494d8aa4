/-
Source maps asked from both sides.

A mapping that loses nothing leads back: what it answers for a place is a place for which it answers
the first one (`Mapping.mapOffset_back`, `Mapping.mapSpan_back`). Nothing is lost between two spans of
equal length, or by a mapping of the two ends of spans that have two (`Mapping.Balanced`). So over any
list of such mappings, however they overlap, two places are candidates for each other or neither is
one for the other.

Whether anything is lost or not, each mapping answers within its other side, and a span is not turned
around by being cut short: the end of the other side cuts its two ends alike. The candidates are the
answers of the mappings that have one, in their order (`forall₂_filterMap`).

Main statement: `SourceMap.symmetric_and_in_order`.
-/
import HybridMarkup.Proofs.RoundTrip
import Mathlib.Data.List.Forall2

set_option autoImplicit false

namespace HybridMarkup

@[simp] theorem Direction.back_back (d : Direction) : d.back.back = d := by
  cases d <;> rfl

namespace Mapping

/-- Neither side ends before it starts. -/
structure Ordered (m : Mapping) : Prop where
  source : m.source.start ≤ m.source.stop
  mapped : m.mapped.start ≤ m.mapped.stop

/-- Places can be told apart on either side as well as on the other: an offset mapping ties spans of
equal length, and one of the ends only ties spans that have two ends. What is expanded has one place
on the other side. -/
def Balanced (m : Mapping) : Prop :=
  match m.mode with
  | .offset => m.mapped.length = m.source.length
  | .totally => m.source.Covers ∧ m.mapped.Covers
  | .expand => False

variable {m : Mapping} {d : Direction} {offset offset' : Nat} {r q : Span}

theorem Ordered.asked (h : m.Ordered) (d : Direction) :
    (m.asked d).start ≤ (m.asked d).stop := by
  cases d
  · exact h.source
  · exact h.mapped

theorem Ordered.target (h : m.Ordered) (d : Direction) :
    (m.target d).start ≤ (m.target d).stop := by
  rw [← asked_back]
  exact h.asked d.back

theorem Balanced.length_eq (h : m.Balanced) (hmode : m.mode = .offset) (d : Direction) :
    (m.target d).length = (m.asked d).length := by
  rw [Balanced, hmode] at h
  cases d
  · exact h
  · exact h.symm

theorem Balanced.covers (h : m.Balanced) (hmode : m.mode = .totally) (d : Direction) :
    (m.asked d).Covers := by
  rw [Balanced, hmode] at h
  cases d
  · exact h.1
  · exact h.2

/-! ## There and back -/

theorem mapOffset_totally (hmode : m.mode = .totally) :
    m.mapOffset d offset =
      if offset = (m.asked d).start then some (m.target d).start
      else if offset = (m.asked d).stop then some (m.target d).stop else none := by
  simp only [mapOffset, hmode]

/-- The two ends of a span are mapped one by one. -/
theorem mapSpan_offset_iff (hmode : m.mode = .offset) :
    m.mapSpan d r = some q ↔
      m.mapOffset d r.start = some q.start ∧ m.mapOffset d r.stop = some q.stop := by
  simp only [mapSpan, hmode]
  constructor
  · intro h
    split at h
    · next hstart hstop =>
      obtain rfl := Option.some.inj h
      exact ⟨hstart, hstop⟩
    · simp at h
  · rintro ⟨hstart, hstop⟩
    rw [hstart, hstop]

/-- **An offset comes back** from where a balanced mapping takes it. -/
theorem mapOffset_back (hordered : m.Ordered) (h : m.Balanced)
    (hmap : m.mapOffset d offset = some offset') : m.mapOffset d.back offset' = some offset := by
  cases hmode : m.mode with
  | expand => simp [Balanced, hmode] at h
  | offset =>
    have htouches := touches_of_mapOffset (hordered.asked d) hmap
    have hlength := h.length_eq hmode d
    have htarget := hordered.target d
    rw [mapOffset_copy hmode htouches hlength htarget] at hmap
    obtain ⟨hstart, hstop⟩ := Span.touches_iff.1 htouches
    obtain rfl := Option.some.inj hmap
    have hback : (m.asked d.back).touches ((m.target d).start + (offset - (m.asked d).start))
        = true := by
      unfold Span.length at hlength
      rw [asked_back]
      exact Span.touches_iff.2 ⟨Nat.le_add_right _ _, by omega⟩
    rw [mapOffset_copy hmode hback (h.length_eq hmode d.back) (hordered.target d.back), target_back,
      asked_back, Nat.add_sub_cancel_left, Nat.add_sub_cancel' hstart]
  | totally =>
    have hcovers := h.covers hmode d.back
    rw [asked_back, Span.Covers] at hcovers
    rw [mapOffset_totally hmode] at hmap ⊢
    rw [asked_back, target_back]
    split at hmap
    · next hstart => rw [if_pos (Option.some.inj hmap).symm, hstart]
    · split at hmap
      · next hstop =>
        obtain rfl := Option.some.inj hmap
        rw [if_neg (Nat.ne_of_gt hcovers), if_pos rfl, hstop]
      · simp at hmap

/-- **A span comes back** from where a balanced mapping takes it. -/
theorem mapSpan_back (hordered : m.Ordered) (h : m.Balanced) (hmap : m.mapSpan d r = some q) :
    m.mapSpan d.back q = some r := by
  cases hmode : m.mode with
  | expand => simp [Balanced, hmode] at h
  | offset =>
    obtain ⟨hstart, hstop⟩ := (mapSpan_offset_iff hmode).1 hmap
    exact (mapSpan_offset_iff hmode).2
      ⟨mapOffset_back hordered h hstart, mapOffset_back hordered h hstop⟩
  | totally =>
    obtain ⟨htarget, hasked⟩ := target_of_mapSpan (by simp [hmode]) hmap
    simp only [mapSpan, hmode, asked_back, target_back]
    rw [if_pos htarget.symm, hasked hmode]

theorem mapOffset_back_iff (hordered : m.Ordered) (h : m.Balanced) :
    m.mapOffset d offset = some offset' ↔ m.mapOffset d.back offset' = some offset :=
  ⟨mapOffset_back hordered h, fun hmap => by simpa using mapOffset_back hordered h hmap⟩

theorem mapSpan_back_iff (hordered : m.Ordered) (h : m.Balanced) :
    m.mapSpan d r = some q ↔ m.mapSpan d.back q = some r :=
  ⟨mapSpan_back hordered h, fun hmap => by simpa using mapSpan_back hordered h hmap⟩

/-! ## Where the answers lie -/

/-- What is answered lies in the other side, its ends included. -/
theorem touches_target (hordered : m.Ordered) (h : m.mapOffset d offset = some offset') :
    (m.target d).touches offset' = true := by
  have htarget := hordered.target d
  rw [Span.touches_iff]
  cases hmode : m.mode with
  | totally =>
    rw [mapOffset_totally hmode] at h
    split at h
    · rw [← Option.some.inj h]
      exact ⟨Nat.le_refl _, htarget⟩
    · split at h
      · rw [← Option.some.inj h]
        exact ⟨htarget, Nat.le_refl _⟩
      · simp at h
  | offset =>
    simp only [mapOffset, hmode] at h
    split at h
    · rw [← Option.some.inj h]
      exact ⟨Nat.le_min.2 ⟨Nat.le_add_right _ _, htarget⟩, Nat.min_le_right _ _⟩
    · simp at h
  | expand =>
    simp only [mapOffset, hmode] at h
    split at h
    · rw [← Option.some.inj h]
      exact ⟨Nat.le_refl _, htarget⟩
    · simp at h

/-- An offset mapping keeps the order of two offsets, although it may make them the same. -/
theorem mapOffset_le {o o' p p' : Nat} (hmode : m.mode = .offset) (hle : o ≤ p)
    (ho : m.mapOffset d o = some o') (hp : m.mapOffset d p = some p') : o' ≤ p' := by
  simp only [mapOffset, hmode] at ho hp
  split at ho
  · split at hp
    · rw [← Option.some.inj ho, ← Option.some.inj hp]
      omega
    · simp at hp
  · simp at ho

/-- **A span is not turned around**, and what is answered for it lies in the other side. -/
theorem includes_target (hordered : m.Ordered) (hr : r.start ≤ r.stop)
    (h : m.mapSpan d r = some q) :
    (m.target d).includes q = true ∧ q.start ≤ q.stop := by
  by_cases hmode : m.mode = .offset
  · obtain ⟨hstart, hstop⟩ := (mapSpan_offset_iff hmode).1 h
    exact ⟨Span.includes_iff.2 ⟨(Span.touches_iff.1 (touches_target hordered hstart)).1,
      (Span.touches_iff.1 (touches_target hordered hstop)).2⟩,
      mapOffset_le hmode hr hstart hstop⟩
  · obtain ⟨rfl, _⟩ := target_of_mapSpan hmode h
    exact ⟨Span.includes_iff.2 ⟨Nat.le_refl _, Nat.le_refl _⟩, hordered.target d⟩

end Mapping

/-! ## Lists of mappings -/

/-- What is left of a list are the values of those members that have one, in their order. -/
theorem forall₂_filterMap {α β : Type} {f : α → Option β} {R : α → β → Prop} {l : List α}
    (h : ∀ a ∈ l, ∀ b, f a = some b → R a b) :
    List.Forall₂ R (l.filter fun a => (f a).isSome) (l.filterMap f) := by
  induction l with
  | nil => exact .nil
  | cons a l ih =>
    have hrest := ih fun a' ha' => h a' (List.mem_cons_of_mem _ ha')
    cases ha : f a with
    | none => simpa [ha] using hrest
    | some b => simpa [ha] using List.Forall₂.cons (h a List.mem_cons_self b ha) hrest

namespace SourceMap

/-- **Source maps read the same from both sides**, as long as no mapping loses anything: an offset is
a candidate for another just if the other is one for it, and so are spans. Any map lists one candidate
for each of its mappings that has an answer, in their order, and inside the other side of that
mapping; and none of the spans among them is turned around. -/
theorem symmetric_and_in_order :
    (∀ map : SourceMap, (∀ m ∈ map.mappings, m.Ordered ∧ m.Balanced) →
      (∀ o t, t ∈ map.mappedOffsets o ↔ o ∈ map.sourceOffsets t) ∧
        ∀ r q, q ∈ map.mappedSpans r ↔ r ∈ map.sourceSpans q) ∧
      ∀ map : SourceMap, (∀ m ∈ map.mappings, m.Ordered) → ∀ d,
        (∀ o, List.Forall₂ (fun m t => m.mapOffset d o = some t ∧ (m.target d).touches t = true)
          (map.mappings.filter fun m => (m.mapOffset d o).isSome) (map.mapOffsets d o)) ∧
          ∀ r : Span, r.start ≤ r.stop →
            List.Forall₂ (fun m q => m.mapSpan d r = some q ∧
                (m.target d).includes q = true ∧ q.start ≤ q.stop)
              (map.mappings.filter fun m => (m.mapSpan d r).isSome) (map.mapSpans d r) := by
  refine ⟨fun map h => ⟨fun o t => ?_, fun r q => ?_⟩, fun map h d => ⟨fun o => ?_, fun r hr => ?_⟩⟩
  · simp only [mappedOffsets, sourceOffsets, mapOffsets, List.mem_filterMap]
    exact exists_congr fun m => and_congr_right fun hm =>
      Mapping.mapOffset_back_iff (d := .sourceToMapped) (h m hm).1 (h m hm).2
  · simp only [mappedSpans, sourceSpans, mapSpans, List.mem_filterMap]
    exact exists_congr fun m => and_congr_right fun hm =>
      Mapping.mapSpan_back_iff (d := .sourceToMapped) (h m hm).1 (h m hm).2
  · exact forall₂_filterMap fun m hm t ht => ⟨ht, Mapping.touches_target (h m hm) ht⟩
  · exact forall₂_filterMap fun m hm q hq => ⟨hq, Mapping.includes_target (h m hm) hr hq⟩

/-- A whole in braces overlaps with the copy of its inside, and then with a mapping to a side that is
too short, at whose end the two ends of a span are cut short to one. -/
theorem symmetric_and_in_order_overlapping :
    let whole : Mapping := ⟨.totally, ⟨4, 11⟩, ⟨40, 49⟩⟩
    let copy : Mapping := ⟨.offset, ⟨5, 10⟩, ⟨41, 46⟩⟩
    let short : Mapping := ⟨.offset, ⟨0, 10⟩, ⟨50, 54⟩⟩
    (⟨42, 44⟩ ∈ mappedSpans ⟨[whole, copy]⟩ ⟨6, 8⟩ ∧ ⟨6, 8⟩ ∈ sourceSpans ⟨[whole, copy]⟩ ⟨42, 44⟩) ∧
      List.Forall₂ (fun m q => m.mapSpan .sourceToMapped ⟨6, 8⟩ = some q ∧
          m.mapped.includes q = true ∧ q.start ≤ q.stop) [copy, short] [⟨42, 44⟩, ⟨54, 54⟩] := by
  intro whole copy short
  have hwhole : whole.Ordered ∧ whole.Balanced := ⟨⟨by decide, by decide⟩, by decide, by decide⟩
  have hcopy : copy.Ordered ∧ copy.Balanced := ⟨⟨by decide, by decide⟩, rfl⟩
  have hshort : short.Ordered := ⟨by decide, by decide⟩
  have hmapped : ⟨42, 44⟩ ∈ mappedSpans ⟨[whole, copy]⟩ ⟨6, 8⟩ := by decide
  have hboth := (symmetric_and_in_order.1 ⟨[whole, copy]⟩ (by simpa using ⟨hwhole, hcopy⟩)).2
  have hall := (symmetric_and_in_order.2 ⟨[whole, copy, short]⟩
    (by simpa using ⟨hwhole.1, hcopy.1, hshort⟩) .sourceToMapped).2
  exact ⟨⟨hmapped, (hboth ⟨6, 8⟩ ⟨42, 44⟩).1 hmapped⟩, hall ⟨6, 8⟩ (by decide)⟩

end SourceMap

end HybridMarkup
