/-
What is not closed is reported, once, and nothing else is.

An element ends in one of four ways: with its start tag, since it is void or closes itself, or with
an end tag of its name, or nothing closes it (`Parse.EndsBy`). Comments, blocks and mustaches end at
a token, or with the text. For each node that nothing closes there is one entry among the
diagnostics, and there is no other entry of that kind (`Parse.unclosed_reported`).

The work is done in the ledger of a draft. Here it is read off when the text has ended: an entry of
the ledger is found again by the place where it begins, as no two nodes that have to be closed begin
at the same place; and the lint rules have other names.
-/
import HybridMarkup.Proofs.Ledger
import HybridMarkup.Proofs.Reported
import Mathlib.Data.List.Nodup

set_option autoImplicit false

namespace HybridMarkup

open Text

/-! ## The ledger of a document -/

namespace Draft

variable {text : Text} {d : Draft} {ts ts' : List Token} {left : List Nat} {i j : Nat}

/-- Tokens that end nothing do not matter. -/
theorem Ledger.congr_tokens (h : d.Ledger text ts left) (hinitial : ts <+: ts')
    (hmem : ∀ c ∈ ts', c.kind ≠ .eos → c ∈ ts) : d.Ledger text ts' left := by
  refine ⟨h.entries, h.nodup, h.closed, fun i hi => ⟨(h.cutOff i hi).element, fun hother => ?_⟩,
    fun i hi hkind => (h.ended i hi hkind).imp_right fun hend => hend.mono hinitial.isInfix,
    h.rising, h.apart⟩
  obtain ⟨hstop, hnot⟩ := (h.cutOff i hi).other hother
  refine ⟨hstop, fun ⟨c, hc, hended, hat⟩ => hnot ⟨c, hmem c hc fun heos => ?_, hended, hat⟩⟩
  rw [heos] at hended
  simp [TokenKind.ended?] at hended

/-- **In the end the ledger has all nodes that have no end.** -/
theorem Ledger.mem_iff (h : d.Ledger text ts left)
    (hclosed : ∀ i, (d.tree.kind i).isStructural = true → d.Closed i) :
    i ∈ left ↔ (d.tree.kind i).isStructural = true ∧ ¬ d.tree.HasEnd ts i := by
  constructor
  · exact fun hi => ⟨(h.closed i hi).2, (h.cutOff i hi).not_hasEnd⟩
  · exact fun ⟨hkind, hnot⟩ => (h.ended i (hclosed i hkind) hkind).resolve_right hnot

/-- A node is known by the place where it begins. -/
theorem Ledger.eq_of_start (h : d.Ledger text ts left) (hi : (d.tree.kind i).isStructural = true)
    (hj : (d.tree.kind j).isStructural = true)
    (hstart : (d.tree.span i).start = (d.tree.span j).start) : i = j := by
  rcases Nat.lt_trichotomy i j with hlt | heq | hlt
  · exact absurd hstart (Nat.ne_of_lt (h.rising i j hi hj hlt))
  · exact heq
  · exact absurd hstart (Nat.ne_of_gt (h.rising j i hj hi hlt))

/-- **Of the entries of the ledger one is about the node**, and all others begin elsewhere. -/
theorem Ledger.filter_entries (h : d.Ledger text ts left) (hi : i ∈ left)
    (p : Diagnostic → Bool) (hp : p (d.tree.complaint i) = true)
    (hstart : ∀ x, p x = true → x.span.start = (d.tree.span i).start) :
    (left.map d.tree.complaint).filter p = [d.tree.complaint i] := by
  have hsame : ∀ j ∈ left, (p ∘ d.tree.complaint) j = (j == i) := by
    intro j hj
    by_cases heq : j = i
    · rw [heq, Function.comp_apply, hp]
      simp
    · rw [beq_eq_false_iff_ne.2 heq]
      refine Bool.eq_false_iff.2 fun hpj =>
        heq (h.eq_of_start (h.closed j hj).2 (h.closed i hi).2 ?_)
      exact Node.start_complaint.symm.trans (hstart _ hpj)
  rw [List.filter_map, List.filter_congr hsame, List.filter_beq,
    List.count_eq_one_of_mem h.nodup hi]
  rfl

end Draft

/-- **The ledger of a document.** -/
theorem Parse.exists_ledger (dialect : Dialect) (text : Text) :
    ∃ ts pos left, (draft dialect text).Ledger text (tokenize dialect text) left ∧
      (draft dialect text).Landmarked ts pos ∧ ts <+: tokenize dialect text ∧
      ∀ c ∈ tokenize dialect text, c.kind ≠ .eos → c ∈ ts := by
  obtain ⟨d, s, ts, hfinish, habreast, ⟨hmarks, _, hbooked⟩, hinitial, hmem⟩ :=
    Draft.exists_abreast (P := fun d ts pos => d.Recorded text ts pos) dialect text
      (Draft.recorded_start dialect text) fun h hrest hd => h.recorded hrest hd
  have hlaid := habreast.laid
  have hend := hlaid.mono hlaid.pos_le (Nat.le_refl _)
  obtain ⟨hfinal, _⟩ := hmarks.finish habreast.headsOnly hend hlaid.pos_le
  obtain ⟨left, hledger⟩ := hbooked.finish hmarks hend hlaid.pos_le
  rw [hfinish] at hfinal hledger
  exact ⟨ts, _, left, hledger.congr_tokens hinitial hmem, hfinal, hinitial, hmem⟩

/-! ## The documents -/

/-- The ways in which an element can end. -/
inductive Element.Ending where
  /-- It is void, and a bracket ends its start tag. -/
  | void
  | selfClosing
  /-- An end tag of its name closes it. -/
  | endTag
  /-- Nothing closes it. -/
  | unclosed

namespace Parse

/-- The fault is reported at the span, once. -/
def ReportsOnce (p : Parse) (error : ParseError) (span : Span) : Prop :=
  p.diagnostics.filter (fun x => x.name == error.name && x.span == span) = [error.entry span]

/-- How the element `i` ends, the start tag of which ends at `st`. -/
def EndsBy (p : Parse) (ts : List Token) (i : NodeId) (e : Element) (st : Nat) :
    Element.Ending → Prop
  | .void => isVoid e.tag = true ∧ e.Bracketed ts
  | .selfClosing => e.selfClose = true
  | .endTag => e.ClosedByTag ts (p.tree.span i).stop
  | .unclosed => p.ReportsOnce .tagUnclosed ⟨(p.tree.span i).start, st⟩

end Parse

/-- Nothing closes the node, which has to be closed. -/
def Tree.Unclosed (t : Tree) (ts : List Token) (i : NodeId) : Prop :=
  match t.data i with
  | .element e => ¬ e.Bodiless ts ∧ ¬ e.ClosedByTag ts (t.span i).stop
  | .comment _ | .codeBlock _ | .mustache _ _ => ¬ t.EndsAtToken ts i
  | _ => False

section Document

variable {p : Parse} {d : Draft} {text : Text} {ts : List Token} {left : List Nat} {i : Nat}
  {e : Element} {st : Nat} {error : ParseError} {span : Span}

/-- An entry of the ledger is found once among the diagnostics. -/
theorem Draft.Ledger.reportsOnce (h : d.Ledger text ts left)
    (hp : p.diagnostics.filter Diagnostic.isUnclosed = left.map d.tree.complaint) (hi : i ∈ left)
    (hentry : d.tree.complaint i = error.entry span) : p.ReportsOnce error span := by
  have hunclosed (x : Diagnostic) (hx : x.name = error.name) : x.isUnclosed = true := by
    have hcomplaint : (error.entry span).isUnclosed = true := hentry ▸ Node.isUnclosed_complaint
    rw [Diagnostic.isUnclosed, hx]
    exact hcomplaint
  -- whatever has the name is about something that is not closed
  have hfilter : p.diagnostics.filter (fun x => x.name == error.name && x.span == span)
      = (p.diagnostics.filter Diagnostic.isUnclosed).filter
          fun x => x.name == error.name && x.span == span := by
    rw [List.filter_filter]
    refine List.filter_congr fun x _ => ?_
    by_cases hx : x.name = error.name
    · simp [hunclosed x hx]
    · simp [hx]
  unfold Parse.ReportsOnce
  rw [hfilter, hp, ← hentry]
  refine h.filter_entries hi _ (by simp [hentry, ParseError.entry]) fun x hx => ?_
  have hspan : x.span = span := by simpa using (Bool.and_eq_true_iff.1 hx).2
  have hstart : (d.tree.complaint i).span.start = (d.tree.span i).start := Node.start_complaint
  rw [hspan, ← hstart, hentry]
  rfl

/-- What is reported is an entry of the ledger. -/
theorem Draft.Ledger.exists_of_reportsOnce
    (hp : p.diagnostics.filter Diagnostic.isUnclosed = left.map d.tree.complaint)
    (h : p.ReportsOnce .tagUnclosed span) :
    ∃ i ∈ left, (d.tree.span i).start = span.start := by
  have hmem : ParseError.tagUnclosed.entry span ∈ p.diagnostics.filter
      fun x => x.name == ParseError.tagUnclosed.name && x.span == span :=
    h ▸ List.mem_singleton_self _
  have hentry : ParseError.tagUnclosed.entry span ∈ left.map d.tree.complaint := by
    rw [← hp]
    exact List.mem_filter.2 ⟨(List.mem_filter.1 hmem).1, rfl⟩
  obtain ⟨i, hi, heq⟩ := List.mem_map.1 hentry
  have hstart : (d.tree.complaint i).span.start = (d.tree.span i).start := Node.start_complaint
  exact ⟨i, hi, by rw [← hstart, heq]; rfl⟩

end Document

namespace Tree

variable {t : Tree} {ts : List Token} {i : Nat} {e : Element} {st : Nat}

/-- What is no element ends at a token. -/
theorem hasEnd_iff_of_other (hkind : t.kind i ≠ .element) :
    t.HasEnd ts i ↔ t.EndsAtToken ts i := by
  refine ⟨fun h => h.resolve_left ?_, .inr⟩
  rintro ⟨e, he, _⟩
  exact hkind (kind_of_data (NodeData.element?_eq_some.1 he))

/-- An element ends with its start tag, or an end tag closes it. -/
theorem Landmarks.hasEnd_iff (h : t.Landmarks ts i e st) (hdata : t.data i = .element e) :
    t.HasEnd ts i ↔ e.Bodiless ts ∨ e.ClosedByTag ts (t.span i).stop := by
  have helement : (t.data i).element? = some e := NodeData.element?_eq_some.2 hdata
  constructor
  · rintro (⟨e', he', hend⟩ | ⟨c, _, hkind, _⟩)
    · obtain rfl := Option.some.inj (helement.symm.trans he')
      exact hend.imp_left h.endTag.1
    · rw [kind_of_data hdata] at hkind
      exact absurd hkind c.kind.ended?_ne_element
  · exact fun hend => .inl ⟨e, helement, hend.imp_left h.endTag.2⟩

/-- **What is not closed** has to be closed and has no end. -/
theorem unclosed_iff (hland : ∀ e, t.data i = .element e → ∃ st, t.Landmarks ts i e st) :
    t.Unclosed ts i ↔ (t.kind i).isStructural = true ∧ ¬ t.HasEnd ts i := by
  have hkind : t.kind i = (t.data i).kind := rfl
  cases hdata : t.data i with
  | element e =>
    obtain ⟨st, hland⟩ := hland e hdata
    rw [hland.hasEnd_iff hdata, not_or, hkind, hdata]
    simp [Unclosed, hdata, NodeData.kind, NodeKind.isStructural]
  | comment _ | codeBlock _ | mustache _ _ =>
    rw [hasEnd_iff_of_other (by rw [hkind, hdata]; simp [NodeData.kind]), hkind, hdata]
    simp [Unclosed, hdata, NodeData.kind, NodeKind.isStructural]
  | _ => simp [Unclosed, hdata, hkind, NodeData.kind, NodeKind.isStructural]

end Tree

/-- **The four ways to end exclude each other**, if what is not closed is what is reported. -/
theorem Parse.exists_unique_ending {p : Parse} {ts : List Token} {i : NodeId} {e : Element}
    {st : Nat} (hland : p.tree.Landmarks ts i e st) (hdata : p.tree.data i = .element e)
    (hreported : p.ReportsOnce .tagUnclosed ⟨(p.tree.span i).start, st⟩ ↔ ¬ p.tree.HasEnd ts i) :
    ∃! ending, p.EndsBy ts i e st ending := by
  have hend := hland.hasEnd_iff hdata
  have htag (h : e.ClosedByTag ts (p.tree.span i).stop) : ¬ e.Bodiless ts := by
    obtain ⟨_, _, q, _, _, _, _, _, _, hq, _⟩ := h
    rw [← hland.endTag, hq]
    simp
  by_cases hself : e.selfClose = true
  · refine ⟨.selfClosing, hself, fun ending h => ?_⟩
    cases ending with
    | void => exact absurd h.2 (hland.selfClose hself)
    | selfClosing => rfl
    | endTag => exact absurd (.inl hself) (htag h)
    | unclosed => exact absurd (hend.2 (.inl (.inl hself))) (hreported.1 h)
  by_cases hvoid : isVoid e.tag = true ∧ e.Bracketed ts
  · refine ⟨.void, hvoid, fun ending h => ?_⟩
    cases ending with
    | void => rfl
    | selfClosing => exact absurd h hself
    | endTag => exact absurd (.inr hvoid) (htag h)
    | unclosed => exact absurd (hend.2 (.inl (.inr hvoid))) (hreported.1 h)
  by_cases hclosed : e.ClosedByTag ts (p.tree.span i).stop
  · refine ⟨.endTag, hclosed, fun ending h => ?_⟩
    cases ending with
    | void => exact absurd h hvoid
    | selfClosing => exact absurd h hself
    | endTag => rfl
    | unclosed => exact absurd (hend.2 (.inr hclosed)) (hreported.1 h)
  · refine ⟨.unclosed, hreported.2 fun h => ?_, fun ending h => ?_⟩
    · exact (hend.1 h).elim (fun hb => hb.elim hself hvoid) hclosed
    cases ending with
    | void => exact absurd h hvoid
    | selfClosing => exact absurd h hself
    | endTag => exact absurd h hclosed
    | unclosed => rfl

/-- What the ledger says of the diagnostics, where they are those of the draft and other ones. -/
structure Parse.Accounted (p : Parse) (d : Draft) (text : Text) (ts : List Token)
    (left : List Nat) : Prop where
  ledger : d.Ledger text ts left
  entries : p.diagnostics.filter Diagnostic.isUnclosed = left.map p.tree.complaint
  tree : p.tree = d.tree
  mem_iff : ∀ i, i ∈ left ↔ (p.tree.kind i).isStructural = true ∧ ¬ p.tree.HasEnd ts i

/-- **What is no element goes on to the end of the text**, if nothing ends it. -/
theorem Parse.Accounted.other {p : Parse} {d : Draft} {text : Text} {ts : List Token}
    {left : List Nat} {i : Nat} {error : ParseError} (h : p.Accounted d text ts left)
    (hne : p.tree.kind i ≠ .element) (hkind : (p.tree.kind i).isStructural = true)
    (hnot : ¬ p.tree.EndsAtToken ts i)
    (hentry : p.tree.complaint i = error.entry (p.tree.span i)) :
    (p.tree.span i).stop = size text ∧
      p.ReportsOnce error ⟨(p.tree.span i).start, size text⟩ := by
  have hi : i ∈ left := (h.mem_iff i).2 ⟨hkind, by rwa [Tree.hasEnd_iff_of_other hne]⟩
  have hentries := h.entries
  rw [h.tree] at hne hentry hentries ⊢
  obtain ⟨hstop, _⟩ := (h.ledger.cutOff i hi).other hne
  refine ⟨hstop, h.ledger.reportsOnce hentries hi ?_⟩
  rw [← hstop]
  exact hentry

/-- **The start tag of an element is reported if nothing closes it**, and only then. -/
theorem Parse.Accounted.element {p : Parse} {d : Draft} {text : Text} {ts : List Token}
    {left : List Nat} {i : Nat} {e : Element} {st : Nat} (h : p.Accounted d text ts left)
    (hdata : p.tree.data i = .element e) (hst : e.startTagEnd = some st) :
    p.ReportsOnce .tagUnclosed ⟨(p.tree.span i).start, st⟩ ↔ ¬ p.tree.HasEnd ts i := by
  have hstructural : (p.tree.kind i).isStructural = true := by
    rw [Tree.kind_of_data hdata]
    rfl
  have hentry := Tree.complaint_element hdata hst
  have hentries := h.entries
  rw [h.tree] at hentry hentries
  constructor
  · intro hreported
    -- the entry is that of some node, and of no other one that begins there
    obtain ⟨j, hj, hstart⟩ := Draft.Ledger.exists_of_reportsOnce hentries hreported
    rw [h.tree] at hstart hstructural
    have heq := h.ledger.eq_of_start (h.ledger.closed j hj).2 hstructural hstart
    exact ((h.mem_iff i).1 (heq ▸ hj)).2
  · intro hnot
    rw [h.tree]
    exact h.ledger.reportsOnce hentries ((h.mem_iff i).2 ⟨hstructural, hnot⟩) hentry

/-- **The accounts of a document.** -/
theorem Parse.exists_accounted (options : ParseOptions) (text : Text) :
    ∃ left, (ofText options text).Accounted (draft options.dialect text) text
        (tokenize options.dialect text) left ∧
      ∀ i e, (ofText options text).tree.data i = .element e →
        ∃ st, e.startTagEnd = some st ∧
          (ofText options text).tree.Landmarks (tokenize options.dialect text) i e st := by
  obtain ⟨ts, pos, left, hledger, hmarks, hinitial, hmem⟩ := exists_ledger options.dialect text
  obtain ⟨hlaid, hcurrent⟩ := draft_laid options.dialect text
  have hclosed (i : Nat) (hi : ((draft options.dialect text).tree.kind i).isStructural = true) :
      (draft options.dialect text).Closed i := by
    refine Draft.closed_of_root hlaid.shape hcurrent (Tree.lt_size_of_structural hi) ?_
    rintro rfl
    rw [hlaid.root_kind] at hi
    simp [NodeKind.isStructural] at hi
  -- the lint rules add nothing
  have hlint : (options.lint.lint (draft options.dialect text).tree).filter
      Diagnostic.isUnclosed = [] :=
    options.lint.filter_lint Diagnostic.byName_isUnclosed (by decide) _
  refine ⟨left, ⟨hledger, ?_, rfl, fun i => hledger.mem_iff hclosed⟩, fun i e hdata =>
    hmarks.exists_landmarks hlaid hcurrent hinitial hmem hdata⟩
  show (_ ++ options.lint.lint _).filter _ = _
  rw [List.filter_append, hlint, List.append_nil]
  exact hledger.entries

/-- **What is not closed is accounted for.** In every dialect each element of a parsed document ends
in one way, and in one only: it is void and a bracket ends its start tag, or it closes itself, or an
end tag of its name closes it, which begins where its end is noted and ends where the element ends;
or its start tag is reported, once. A comment or a block that no token ends goes on to the end of
the text and is reported as a whole, once, and so is a mustache, under a name of its own. For each
of these nodes there is one entry among the diagnostics, and there are no others of these names. -/
theorem Parse.unclosed_reported (options : ParseOptions) (text : Text) :
    let p := ofText options text
    let ts := tokenize options.dialect text
    (∀ i e, p.tree.data i = .element e →
      ∃ st, e.startTagEnd = some st ∧ ∃! ending, p.EndsBy ts i e st ending) ∧
    (∀ i, p.tree.kind i = .comment ∨ p.tree.kind i = .codeBlock → ¬ p.tree.EndsAtToken ts i →
      (p.tree.span i).stop = size text ∧
        p.ReportsOnce .tagUnclosed ⟨(p.tree.span i).start, size text⟩) ∧
    (∀ i, p.tree.kind i = .mustache → ¬ p.tree.EndsAtToken ts i →
      (p.tree.span i).stop = size text ∧
        p.ReportsOnce .mustacheEndExpected ⟨(p.tree.span i).start, size text⟩) ∧
    ∃ left : List NodeId, left.Nodup ∧ (∀ i, i ∈ left ↔ p.tree.Unclosed ts i) ∧
      p.diagnostics.filter Diagnostic.isUnclosed = left.map p.tree.complaint := by
  obtain ⟨left, haccounted, hland⟩ := exists_accounted options text
  intro p ts
  refine ⟨fun i e hdata => ?_, fun i hi hnot => ?_, fun i hi hnot => ?_, left,
    haccounted.ledger.nodup, fun i => ?_, haccounted.entries⟩
  · obtain ⟨st, hst, hland⟩ := hland i e hdata
    exact ⟨st, hst, exists_unique_ending hland hdata (haccounted.element hdata hst)⟩
  · have hkind : p.tree.kind i ≠ .element ∧ (p.tree.kind i).isStructural = true := by
      rcases hi with hi | hi <;> rw [hi] <;> exact ⟨by simp, rfl⟩
    exact haccounted.other hkind.1 hkind.2 hnot (Tree.complaint_plain hi)
  · exact haccounted.other (by rw [hi]; simp) (by rw [hi]; rfl) hnot (Tree.complaint_mustache hi)
  · rw [haccounted.mem_iff]
    exact (Tree.unclosed_iff fun e he => (hland i e he).imp fun _ h => h.2).symm

/-- Bold text that is cut off by the end tag of its paragraph, and a mustache by the end of the
text. -/
theorem Parse.unclosed_reported_cut_off :
    let p := ofText { dialect := .template } "<p><b>x</p>\x7b\x7b y".toList
    let ts := tokenize .template "<p><b>x</p>\x7b\x7b y".toList
    let bold : Element := { tag := "b".toList, startTagEnd := some 6, endTagStart := some 7 }
    (p.tree.data 2 = .element bold ∧
      ∃ st, bold.startTagEnd = some st ∧ ∃! ending, p.EndsBy ts 2 bold st ending) ∧
    (p.tree.kind 4 = .mustache ∧ ¬ p.tree.EndsAtToken ts 4 ∧
      (p.tree.span 4).stop = size "<p><b>x</p>\x7b\x7b y".toList ∧
        p.ReportsOnce .mustacheEndExpected
          ⟨(p.tree.span 4).start, size "<p><b>x</p>\x7b\x7b y".toList⟩) := by
  intro p ts bold
  have hbold : p.tree.data 2 = .element bold := by decide +kernel
  have hmustache : p.tree.kind 4 = .mustache := by decide +kernel
  have hopen : ¬ p.tree.EndsAtToken ts 4 := by
    unfold Tree.EndsAtToken
    decide +kernel
  obtain ⟨helements, _, hmustaches, _⟩ := Parse.unclosed_reported { dialect := .template }
    "<p><b>x</p>\x7b\x7b y".toList
  exact ⟨⟨hbold, helements 2 bold hbold⟩, hmustache, hopen, hmustaches 4 hmustache hopen⟩

/-- An end tag closes the paragraph. Nothing closes the bold text, or the mustache. -/
example : (Parse.ofText { dialect := .template } "<p><b>x</p>\x7b\x7b y".toList).diagnostics.filter
      Diagnostic.isUnclosed =
    [ParseError.tagUnclosed.entry ⟨3, 6⟩, ParseError.mustacheEndExpected.entry ⟨11, 15⟩] := by
  decide +kernel

end HybridMarkup
