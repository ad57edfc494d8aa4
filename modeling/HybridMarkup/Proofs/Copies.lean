/-
Generated texts that are true to what they were copied from.

`Copied` collects what a reader of mappings relies on: every span cuts the text it is about between
characters, an offset mapping ties equal texts, the copies lie in the generated text in the order
of the mappings without running into each other, and a mapping of a whole in braces has the copy of
the inner part between its two braces. A generated text only grows at its end, so each way of
adding to it is shown once to keep all of this.
-/
import HybridMarkup.CodeGen
import HybridMarkup.Proofs.Spans

set_option autoImplicit false

namespace HybridMarkup

open Text

/-- The whole is the inner part in braces; where the closing brace is missing, both end together. -/
structure Braces (text : Text) (whole inner : Span) : Prop where
  cutsWhole : whole.Cuts text
  cutsInner : inner.Cuts text
  begins : inner.start = whole.start + 1
  reads : slice text whole = '{' :: slice text inner ++ ['}'] ∧ inner.stop + 1 = whole.stop ∨
    slice text whole = '{' :: slice text inner ∧ inner.stop = whole.stop

/-- The mappings that stand for copies, in their order. -/
def copies (mappings : List Mapping) : List Mapping := mappings.filter fun m => m.mode = .offset

theorem copies_append (ms ms' : List Mapping) : copies (ms ++ ms') = copies ms ++ copies ms' :=
  List.filter_append ..

theorem copies_singleton {m : Mapping} (h : m.mode = .offset) : copies [m] = [m] := by
  simp [copies, h]

theorem copies_singleton_ne {m : Mapping} (h : m.mode ≠ .offset) : copies [m] = [] := by
  simp [copies, h]

/-- The spans that cover something. -/
def covering (spans : List Span) : List Span := spans.filter fun s => s.Covers

@[simp] theorem covering_nil : covering [] = [] := rfl

@[simp] theorem covering_append (ss ss' : List Span) :
    covering (ss ++ ss') = covering ss ++ covering ss' :=
  List.filter_append ..

/-- The parts of the source that are copied, in the order of the copies. -/
def copiedSpans (mappings : List Mapping) : List Span :=
  covering ((copies mappings).map Mapping.source)

/-- A generated text and its mappings are true to the source. -/
structure Copied (source generated : Text) (mappings : List Mapping) : Prop where
  /-- All four ends fall between two characters. -/
  cuts : ∀ m ∈ mappings, m.source.Cuts source ∧ m.mapped.Cuts generated
  /-- What is mapped by distance is the same text on both sides. -/
  same : ∀ m ∈ mappings, m.mode = .offset → slice generated m.mapped = slice source m.source
  /-- The copies are listed as they follow each other, and none runs into the next. -/
  ordered : (copies mappings).Pairwise fun a b => a.mapped.stop ≤ b.mapped.start
  /-- A whole in braces is generated as a brace, the copy of what is inside, and a brace. -/
  totals : ∀ m ∈ mappings, m.mode = .totally → ∃ copy ∈ mappings, copy.mode = .offset ∧
    Braces source m.source copy.source ∧
    copy.mapped = ⟨m.mapped.start + 1, m.mapped.stop - 1⟩ ∧
    slice generated m.mapped = '{' :: slice source copy.source ++ ['}']

theorem copied_nil (source generated : Text) : Copied source generated [] :=
  ⟨fun _ h => absurd h List.not_mem_nil, fun _ h => absurd h List.not_mem_nil, .nil,
    fun _ h => absurd h List.not_mem_nil⟩

namespace CodeGen

variable {source : Text} {g : CodeGen}

/-- The parts of the source that were copied so far. -/
def copied (g : CodeGen) : List Span := copiedSpans g.mappings

@[simp] theorem copied_addText (g : CodeGen) (text : Text) :
    (g.addText text).copied = g.copied := rfl

theorem copied_addMapping (g : CodeGen) {m : Mapping} (h : m.mode ≠ .offset) :
    (g.addMapping m).copied = g.copied := by
  show covering ((copies (g.mappings ++ [m])).map Mapping.source) = _
  rw [copies_append, copies_singleton_ne h, List.append_nil]
  rfl

@[simp] theorem copied_addCode (g : CodeGen) (text : Text) (span : Span) :
    (g.addCode text .offset span).copied = g.copied ++ covering [span] := by
  show covering ((copies (g.mappings ++ [_])).map Mapping.source) = _
  rw [copies_append, copies_singleton rfl, List.map_append, covering_append]
  rfl

/-- The generated text so far is true to the source. -/
def Faithful (source : Text) (g : CodeGen) : Prop := Copied source g.text g.mappings

theorem Faithful.addText (h : g.Faithful source) (text : Text) :
    (g.addText text).Faithful source := by
  refine ⟨?_, ?_, h.ordered, ?_⟩
  · intro m hm
    exact ⟨(h.cuts m hm).1, ((h.cuts m hm).2.append text).1⟩
  · intro m hm hmode
    rw [← h.same m hm hmode]
    exact ((h.cuts m hm).2.append text).2
  · intro m hm hmode
    obtain ⟨copy, hcopy, hoffset, hbraces, hmapped, hreads⟩ := h.totals m hm hmode
    refine ⟨copy, hcopy, hoffset, hbraces, hmapped, ?_⟩
    rw [← hreads]
    exact ((h.cuts m hm).2.append text).2

theorem nextSpan_cuts (g : CodeGen) (text : Text) :
    (g.nextSpan text).Cuts (g.addText text).text ∧
      slice (g.addText text).text (g.nextSpan text) = text := by
  have htext : (g.addText text).text = g.text ++ (text ++ []) := by
    rw [List.append_nil]
    rfl
  rw [htext]
  exact ⟨Span.cuts_iff.2 ⟨g.text, text, [], rfl, rfl, rfl⟩, Span.slice_eq rfl rfl⟩

/-- The text of a copy that is made now begins behind every copy made before. -/
theorem Faithful.mapped_stop_le (h : g.Faithful source) {m : Mapping} (hm : m ∈ g.mappings) :
    m.mapped.stop ≤ g.size :=
  (h.cuts m hm).2.stop_le

/-- Adding a mapping that is not a copy asks for its ends only, and for the copy inside if it is a
whole in braces. -/
theorem Faithful.addMapping (h : g.Faithful source) {m : Mapping} (hmode : m.mode ≠ .offset)
    (hsource : m.source.Cuts source) (hmapped : m.mapped.Cuts g.text)
    (htotal : m.mode = .totally → ∃ copy ∈ g.mappings, copy.mode = .offset ∧
      Braces source m.source copy.source ∧
      copy.mapped = ⟨m.mapped.start + 1, m.mapped.stop - 1⟩ ∧
      slice g.text m.mapped = '{' :: slice source copy.source ++ ['}']) :
    (g.addMapping m).Faithful source := by
  refine ⟨?_, ?_, ?_, ?_⟩
  · intro m' hm'
    rcases List.mem_append.1 hm' with hm' | hm'
    · exact h.cuts m' hm'
    · rw [List.mem_singleton.1 hm']
      exact ⟨hsource, hmapped⟩
  · intro m' hm' hmode'
    rcases List.mem_append.1 hm' with hm' | hm'
    · exact h.same m' hm' hmode'
    · rw [List.mem_singleton.1 hm'] at hmode'
      exact absurd hmode' hmode
  · show (copies (g.mappings ++ [m])).Pairwise _
    rw [copies_append, copies_singleton_ne hmode, List.append_nil]
    exact h.ordered
  · intro m' hm' hmode'
    rcases List.mem_append.1 hm' with hm' | hm'
    · obtain ⟨copy, hcopy, hrest⟩ := h.totals m' hm' hmode'
      exact ⟨copy, List.mem_append_left _ hcopy, hrest⟩
    · rw [List.mem_singleton.1 hm'] at hmode' ⊢
      obtain ⟨copy, hcopy, hrest⟩ := htotal hmode'
      exact ⟨copy, List.mem_append_left _ hcopy, hrest⟩

/-- **A copy is true to its source** if the copied text is what the span cuts out of it. -/
theorem Faithful.addCode (h : g.Faithful source) {text : Text} {span : Span}
    (hcuts : span.Cuts source) (htext : text = slice source span) :
    (g.addCode text .offset span).Faithful source := by
  -- all that was there before is as true as it was; only the last mapping is new
  have hgrown : (g.addText text).Faithful source := h.addText text
  obtain ⟨hmapped, hreads⟩ := g.nextSpan_cuts text
  refine ⟨?_, ?_, ?_, ?_⟩
  · intro m hm
    rcases List.mem_append.1 hm with hm | hm
    · exact hgrown.cuts m hm
    · rw [List.mem_singleton.1 hm]
      exact ⟨hcuts, hmapped⟩
  · intro m hm hmode
    rcases List.mem_append.1 hm with hm | hm
    · exact hgrown.same m hm hmode
    · rw [List.mem_singleton.1 hm]
      exact hreads.trans htext
  · show (copies (g.mappings ++ [_])).Pairwise _
    rw [copies_append, copies_singleton rfl]
    refine List.pairwise_append.2 ⟨h.ordered, List.pairwise_singleton _ _, ?_⟩
    intro a ha b hb
    rw [List.mem_singleton.1 hb]
    exact h.mapped_stop_le (List.mem_filter.1 ha).1
  · intro m hm hmode
    rcases List.mem_append.1 hm with hm | hm
    · obtain ⟨copy, hcopy, hrest⟩ := hgrown.totals m hm hmode
      exact ⟨copy, List.mem_append_left _ hcopy, hrest⟩
    · rw [List.mem_singleton.1 hm] at hmode
      simp at hmode

end CodeGen

end HybridMarkup
