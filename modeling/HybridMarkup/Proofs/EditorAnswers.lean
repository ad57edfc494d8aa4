/-
What an editor gets is in the coordinates of its own documents.

A host only ever sees generated documents, and answers in their coordinates. What it answers is
carried back by the mappings of the generated document, which are those of the text that the source
has now (`InOrder.code_copied`), so a span that cuts the generated text comes back as one that cuts
the source (`Copied.sourceSpan_cuts`). A span that cuts a text can be shown by lines and columns,
and only such a one can (`Text.exists_lineColumn_iff`). Hence no answer is refused, whatever the
editor asks, as long as the spans of the host cut the documents they are about
(`Workspace.answered_in_source`).

A host may be a program with effects. What comes out of it is stated by triples: `⇓` says that it
does come out, with the property behind it.
-/
import HybridMarkup.Analysis
import HybridMarkup.Proofs.Reports
import HybridMarkup.Proofs.RoundTrip
import HybridMarkup.Proofs.Spellings
import Mathlib

set_option autoImplicit false
set_option mvcgen.warning false

namespace HybridMarkup

open Text Std.Do

/-! ## Lines and columns -/

/-- **Only a place between two characters has a line and a column.** -/
theorem Text.exists_lineColumn_iff {t : Text} {offset : Nat} :
    (∃ place, t.lineColumn offset = .ok place) ↔ isBoundary offset t = true := by
  unfold lineColumn lineColumn?
  cases isBoundary offset t <;> simp

/-- A span of a text by lines and columns. -/
def Text.Locates (t : Text) (shown : LineSpan) : Prop := ∃ s, s.Cuts t ∧ t.lineSpan s = .ok shown

theorem Span.Cuts.located {s : Span} {t : Text} (h : s.Cuts t) :
    ∃ shown, t.lineSpan s = .ok shown ∧ t.Locates shown := by
  obtain ⟨start, hstart⟩ := exists_lineColumn_iff.2 h.start
  obtain ⟨stop, hstop⟩ := exists_lineColumn_iff.2 h.stop
  have hshown : t.lineSpan s = .ok ⟨start, stop⟩ := by
    rw [lineSpan, hstart, hstop]
    rfl
  exact ⟨_, hshown, s, h, hshown⟩

/-! ## Spans that come back -/

/-- **A span of the generated text comes back as a span of the source.** -/
theorem Copied.sourceSpan_cuts {source generated : Text} {map : SourceMap}
    (h : Copied source generated map.mappings) {r s : Span} (hr : r.Cuts generated)
    (hs : map.sourceSpan? r = some s) : s.Cuts source := by
  obtain ⟨m, hm, hanswer⟩ := List.mem_filterMap.1 (List.mem_of_head? hs)
  obtain ⟨hsource, hmapped⟩ := h.cuts m hm
  by_cases hmode : m.mode = .offset
  · have hsame := h.same m hm hmode
    have hlength : m.source.length = m.mapped.length := by
      rw [← hsource.size_slice, ← hmapped.size_slice, hsame]
    have hin : m.mapped.includes r = true := Mapping.includes_of_mapSpan hanswer
    rw [Mapping.mapSpan_copy (d := .mappedToSource) hmode hin hr.ordered hlength
      hsource.ordered] at hanswer
    obtain rfl := Option.some.inj hanswer
    exact (hmapped.same_part hsource hsame.symm hin hr).1
  · obtain ⟨rfl, -⟩ := Mapping.target_of_mapSpan hmode hanswer
    exact hsource

namespace Workspace

section

variable {config : Config} {places isOpen : Path → Prop} {w : Workspace} {f : SourceFile}
  {c : VirtualCode} {d : Document}

/-- **What a source file lists is copied from its document as it is now.** -/
theorem InOrder.code_copied (hplaces : Apart places) (h : w.InOrder config places isOpen)
    (hf : f ∈ w.files) (hc : c ∈ f.codes) :
    ∃ d, w.document? f.path = some d ∧ Copied d.text c.document.text c.sourceMap.mappings := by
  obtain ⟨_, -, hparsed⟩ := (h.settled hf).inStep.reflects hc
  obtain ⟨options, d, -, hd, -, hreflects⟩ := (h.coherent hplaces).parses f hf (by
    rw [hparsed.parse_eq]
    exact Option.some_ne_none _)
  obtain ⟨a, ha, hholds⟩ := SourceFile.exists_of_holds hreflects.holds hc
  refine ⟨d, hd, ?_⟩
  rw [hholds.text_eq, hholds.map_eq]
  exact (Parse.artifacts_clear options.dialect d.text f.path.spelling a ha).1

theorem InOrder.diagnostics_cut (hplaces : Apart places) (h : w.InOrder config places isOpen)
    (hf : f ∈ w.files) (hd : w.document? f.path = some d) :
    ∀ x ∈ f.diagnostics, x.span.Cuts d.text := by
  intro x hx
  cases hparse : f.parse with
  | none => simp [SourceFile.diagnostics, hparse] at hx
  | some parse =>
    obtain ⟨options, d', -, hd', -, hreflects⟩ := (h.coherent hplaces).parses f hf (by
      rw [hparse]
      exact Option.some_ne_none _)
    obtain rfl := Option.some.inj (hd.symm.trans hd')
    rw [SourceFile.diagnostics, hreflects.parse_eq] at hx
    exact Parse.diagnostics_cut options d.text x hx

end

end Workspace

/-! ## Programs that do not fail -/

/-- For what is computed without effects, a triple says that it does not fail. -/
theorem triple_except_iff {ε α : Type} {e : Except ε α} {P : α → Prop} :
    ⦃⌜True⌝⦄ e ⦃⇓ a => ⌜P a⌝⦄ ↔ ∃ a, e = .ok a ∧ P a := by
  cases e with
  | ok a =>
    change ⦃⌜True⌝⦄ (pure a : Except ε α) ⦃⇓ a => ⌜P a⌝⦄ ↔ _
    simp [Triple]
  | error e =>
    change ⦃⌜True⌝⦄ (throw e : Except ε α) ⦃⇓ a => ⌜P a⌝⦄ ↔ _
    simp [Triple]

section

variable {m : Type → Type} {ps : PostShape} [Monad m] [WPMonad m ps] {α β ε : Type}

theorem pure_spec {a : α} {P : α → Prop} (h : P a) :
    ⦃⌜True⌝⦄ (pure a : m α) ⦃⇓ a => ⌜P a⌝⦄ := by
  mvcgen

/-- What is done for each of several things is done for all of them, in their order. -/
theorem mapM_spec {f : α → m β} {R : α → β → Prop} {l : List α}
    (h : ∀ a ∈ l, ⦃⌜True⌝⦄ f a ⦃⇓ b => ⌜R a b⌝⦄) :
    ⦃⌜True⌝⦄ l.mapM f ⦃⇓ bs => ⌜List.Forall₂ R l bs⌝⦄ := by
  induction l with
  | nil => exact pure_spec .nil
  | cons a l ih =>
    have hfirst := h a List.mem_cons_self
    have hrest := ih fun b hb => h b (List.mem_cons_of_mem a hb)
    rw [List.mapM_cons]
    mvcgen [hfirst, hrest] with mpure_intro
    exact .cons ‹_› ‹_›

theorem forall_of_forall₂ {P : β → Prop} {l : List α} {bs : List β}
    (h : List.Forall₂ (fun _ b => P b) l bs) : ∀ b ∈ bs, P b := by
  induction h with
  | nil => exact fun b hb => absurd hb List.not_mem_nil
  | cons hfirst _ ih => exact List.forall_mem_cons.2 ⟨hfirst, ih⟩

theorem exists_mapM {f : α → Except ε β} {P : β → Prop} {l : List α}
    (h : ∀ a ∈ l, ∃ b, f a = .ok b ∧ P b) : ∃ bs, l.mapM f = .ok bs ∧ ∀ b ∈ bs, P b := by
  obtain ⟨bs, hok, hall⟩ :=
    triple_except_iff.1 (mapM_spec fun a ha => triple_except_iff.2 (h a ha))
  exact ⟨bs, hok, forall_of_forall₂ hall⟩

theorem checked_spec {e : Except ε α} {P : α → Prop} (h : ∃ a, e = .ok a ∧ P a) :
    ⦃⌜True⌝⦄ (ExceptT.mk (pure e) : ExceptT ε m α) ⦃⇓ a => ⌜P a⌝⦄ := by
  obtain ⟨a, rfl, ha⟩ := h
  exact pure_spec (m := ExceptT ε m) ha

theorem lift_spec {x : m α} {P : α → Prop} (h : ⦃⌜True⌝⦄ x ⦃⇓ a => ⌜P a⌝⦄) :
    ⦃⌜True⌝⦄ (ExceptT.lift x : ExceptT ε m α) ⦃⇓ a => ⌜P a⌝⦄ := by
  change ⦃⌜True⌝⦄ (MonadLift.monadLift x : ExceptT ε m α) ⦃⇓ a => ⌜P a⌝⦄
  mvcgen [h]

/-- Something is asked, and what is answered is brought into another form. -/
theorem asked_spec {x : m α} {f : α → Except ε β} {Q : α → Prop} {P : β → Prop}
    (hx : ⦃⌜True⌝⦄ x ⦃⇓ a => ⌜Q a⌝⦄) (hf : ∀ a, Q a → ∃ b, f a = .ok b ∧ P b) :
    ⦃⌜True⌝⦄ (ExceptT.lift x >>= fun a => ExceptT.mk (pure (f a)) : ExceptT ε m β)
    ⦃⇓ b => ⌜P b⌝⦄ := by
  have hasked := lift_spec (ε := ε) hx
  have hchecked (a : α) (ha : Q a) := checked_spec (m := m) (hf a ha)
  mvcgen [hasked, hchecked]
  exact id

/-! ## The property -/

/-- A span of a file cuts the document there, if there is one. -/
def Workspace.Aligned (w : Workspace) (s : FileSpan) : Prop :=
  ∀ d, w.document? s.path = some d → s.span.Cuts d.text

/-- The spans that a host answers cut the documents they are about. -/
structure Host.Aligned (host : Host m) (w : Workspace) : Prop where
  diagnostics : ∀ d : Document,
    ⦃⌜True⌝⦄ host.diagnostics d ⦃⇓ found => ⌜∀ x ∈ found, x.span.Cuts d.text⌝⦄
  hover : ∀ (d : Document) (offset : Nat),
    ⦃⌜True⌝⦄ host.hover d offset ⦃⇓ answer? => ⌜∀ x ∈ answer?, ∀ s ∈ x.span, s.Cuts d.text⌝⦄
  definition : ∀ (d : Document) (offset : Nat),
    ⦃⌜True⌝⦄ host.definition d offset ⦃⇓ targets => ⌜∀ x ∈ targets, w.Aligned x⌝⦄
  completions : ∀ (d : Document) (offset : Nat),
    ⦃⌜True⌝⦄ host.completions d offset
    ⦃⇓ offered => ⌜∀ x ∈ offered, ∀ edit ∈ x.edit, edit.1.Cuts d.text⌝⦄

namespace Workspace

/-- A span of the document at a path by lines and columns. -/
def Locates (w : Workspace) (path : Path) (shown : LineSpan) : Prop :=
  ∃ d, w.document? path = some d ∧ d.text.Locates shown

/-- What becomes of a place that the host names. -/
structure BroughtBack (w : Workspace) (target : FileSpan) (answer? : Option FileSpan) : Prop where
  /-- A place in a generated document is left out if it has none in the source, and otherwise is
  one in the source as it is now. -/
  generated : ∀ f ∈ w.files, ∀ c ∈ f.codes, target.path.SameFile c.path →
    (answer? = none ↔ c.sourceMap.sourceSpan? target.span = none) ∧
      ∀ answer ∈ answer?, answer.path = f.path ∧
        ∃ d, w.document? f.path = some d ∧ answer.span.Cuts d.text
  /-- Any other place stays as it is. -/
  foreign : (∀ c, w.Lists c → ¬ target.path.SameFile c.path) → answer? = some target
  /-- Nothing is answered that is in a generated document. -/
  notGenerated : ∀ answer ∈ answer?, ∀ c, w.Lists c → ¬ answer.path.SameFile c.path

/-- What is shown of a finding of this library. -/
structure ShownAs (text : Text) (x : Diagnostic) (shown : EditorDiagnostic) : Prop where
  cuts : x.span.Cuts text
  span_eq : text.lineSpan x.span = .ok shown.span
  name_eq : shown.name = some x.name
  severity_eq : shown.severity = x.severity.shown
  message_eq : shown.message = x.message

theorem ShownAs.located {text : Text} {x : Diagnostic} {shown : EditorDiagnostic}
    (h : ShownAs text x shown) : text.Locates shown.span :=
  ⟨x.span, h.cuts, h.span_eq⟩

/-- The answers of a workspace are in the coordinates of its sources. Findings, what there is to
show and what is offered come out, whatever is asked, and each place in them is that of a span of
the document that is asked about. The findings of parsing and linting are all there, and definitions
are what the host answers, place by place, in the terms of the sources. -/
structure AnsweredInSource (w : Workspace) (host : Host m) : Prop where
  diagnostics : ∀ path,
    ⦃⌜True⌝⦄ w.diagnostics host path
    ⦃⇓ found => ⌜(∀ x ∈ found, w.Locates path x.span) ∧
      ∀ f d, w.source? path = some (f, d) → ∃ own mapped, found = own ++ mapped ∧
        List.Forall₂ (ShownAs d.text) f.diagnostics own⌝⦄
  hover : ∀ p,
    ⦃⌜True⌝⦄ w.hover host p ⦃⇓ answer? => ⌜∀ x ∈ answer?, ∀ s ∈ x.span, w.Locates p.path s⌝⦄
  completions : ∀ p,
    ⦃⌜True⌝⦄ w.completions host p
    ⦃⇓ offered => ⌜∀ x ∈ offered, ∀ edit ∈ x.edit, w.Locates p.path edit.1⌝⦄
  definition : ∀ p, (w.generatedAt? p = none ∧ w.definition host p = pure []) ∨
    ∃ c offset d, w.generatedAt? p = some (c, offset, d) ∧
      w.definition host p
        = List.filterMap w.definitionTarget? <$> host.definition c.document offset ∧
      ⦃⌜True⌝⦄ host.definition c.document offset
      ⦃⇓ targets => ⌜∀ x ∈ targets, w.BroughtBack x (w.definitionTarget? x)⌝⦄

/-! ## Sources -/

variable {w : Workspace}

/-- A document is read at any path with its normal form. -/
theorem document?_congr {p q : Path} (h : p.normalize = q.normalize) :
    w.document? p = w.document? q := by
  rw [document?, document?, Overlay.read?_eq, Overlay.read?_eq, h]

theorem of_source? {path : Path} {f : SourceFile} {d : Document}
    (h : w.source? path = some (f, d)) :
    f ∈ w.files ∧ w.document? path = some d ∧ w.document? f.path = some d := by
  obtain ⟨f, hf, h⟩ := Option.bind_eq_some_iff.1 h
  obtain ⟨d, hd, heq⟩ := Option.map_eq_some_iff.1 h
  obtain ⟨rfl, rfl⟩ := Prod.mk.inj heq
  obtain ⟨hmem, hpath⟩ := mem_of_held? hf
  refine ⟨hmem, hd, (document?_congr ?_).trans hd⟩
  rw [hpath, Path.normalize_normalize]

theorem of_generatedAt? {p : FilePosition} {c : VirtualCode} {offset : Nat} {d : Document}
    (h : w.generatedAt? p = some (c, offset, d)) :
    ∃ f ∈ w.files, c ∈ f.codes ∧ w.document? p.path = some d ∧ w.document? f.path = some d := by
  obtain ⟨⟨f, d⟩, hsource, h⟩ := Option.bind_eq_some_iff.1 h
  obtain ⟨⟨c, offset⟩, hcode, heq⟩ := Option.map_eq_some_iff.1 h
  simp only [Prod.mk.injEq] at heq
  obtain ⟨rfl, rfl, rfl⟩ := heq
  obtain ⟨hf, hd, hd'⟩ := of_source? hsource
  obtain ⟨c, hc, hcode⟩ := List.exists_of_findSome?_eq_some hcode
  obtain ⟨_, -, heq⟩ := Option.map_eq_some_iff.1 hcode
  obtain ⟨rfl, rfl⟩ := Prod.mk.inj heq
  exact ⟨f, hf, hc, hd, hd'⟩

/-! ## Answers -/

theorem ownDiagnostics_shown {text : Text} {found : List Diagnostic}
    (h : ∀ x ∈ found, x.span.Cuts text) :
    ∃ shown, ownDiagnostics text found = .ok shown ∧
      List.Forall₂ (ShownAs text) found shown := by
  refine triple_except_iff.1 (mapM_spec fun x hx => triple_except_iff.2 ?_)
  obtain ⟨shown, hspan, -⟩ := (h x hx).located
  rw [hspan]
  exact ⟨_, rfl, h x hx, hspan, rfl, rfl, rfl⟩

variable {c : VirtualCode} {text : Text}
  (hcopied : Copied text c.document.text c.sourceMap.mappings)

include hcopied

theorem mappedDiagnostics_located {found : List HostDiagnostic}
    (h : ∀ x ∈ found, x.span.Cuts c.document.text) :
    ∃ shown, mappedDiagnostics text c found = .ok shown ∧ ∀ x ∈ shown, text.Locates x.span := by
  refine exists_mapM fun x hx => ?_
  obtain ⟨d, hd, hback⟩ := List.mem_filterMap.1 hx
  obtain ⟨span, hspan, rfl⟩ := Option.map_eq_some_iff.1 hback
  obtain ⟨shown, hshown, hlocates⟩ := (hcopied.sourceSpan_cuts (h d hd) hspan).located
  dsimp only
  rw [hshown]
  exact ⟨_, rfl, hlocates⟩

theorem mappedCompletion_located {x : HostCompletion}
    (h : ∀ edit ∈ x.edit, edit.1.Cuts c.document.text) :
    ∃ shown, mappedCompletion text c x = .ok shown ∧
      ∀ edit ∈ shown.edit, text.Locates edit.1 := by
  unfold mappedCompletion
  dsimp only
  split
  · exact ⟨_, rfl, fun edit hedit => by contradiction⟩
  · next hsome =>
    obtain ⟨edit, hedit, hback⟩ := Option.bind_eq_some_iff.1 hsome
    obtain ⟨span, hspan, heq⟩ := Option.map_eq_some_iff.1 hback
    obtain ⟨rfl, rfl⟩ := Prod.mk.inj heq
    obtain ⟨shown, hshown, hlocates⟩ := (hcopied.sourceSpan_cuts (h edit hedit) hspan).located
    rw [hshown]
    refine ⟨_, rfl, fun edit hedit => ?_⟩
    obtain rfl := Option.some.inj hedit
    exact hlocates

omit hcopied

variable {config : Config} {places isOpen : Path → Prop} {host : Host m}
  (hplaces : Apart places) (h : w.InOrder config places isOpen) (hhost : host.Aligned w)

include hplaces h

theorem InOrder.copied_at {f : SourceFile} (hf : f ∈ w.files) (hc : c ∈ f.codes) {d : Document}
    (hd : w.document? f.path = some d) :
    Copied d.text c.document.text c.sourceMap.mappings := by
  obtain ⟨d', hd', hcopied⟩ := h.code_copied hplaces hf hc
  obtain rfl := Option.some.inj (hd.symm.trans hd')
  exact hcopied

include hhost

/-- **Findings** come out, at places in the document, and all findings of this library do. -/
theorem diagnostics_spec (path : Path) :
    ⦃⌜True⌝⦄ w.diagnostics host path
    ⦃⇓ found => ⌜(∀ x ∈ found, w.Locates path x.span) ∧
      ∀ f d, w.source? path = some (f, d) → ∃ own mapped, found = own ++ mapped ∧
        List.Forall₂ (ShownAs d.text) f.diagnostics own⌝⦄ := by
  unfold diagnostics
  split
  · next hnone =>
    refine pure_spec ⟨fun x hx => absurd hx List.not_mem_nil, fun f d hsome => ?_⟩
    rw [hnone] at hsome
    contradiction
  · next f d hsource =>
    obtain ⟨hf, hd, hpath⟩ := of_source? hsource
    have hown := checked_spec (m := m) (ownDiagnostics_shown (h.diagnostics_cut hplaces hf hpath))
    have hmapped := mapM_spec fun c hc => asked_spec (hhost.diagnostics c.document)
      fun found => mappedDiagnostics_located (h.copied_at hplaces hf hc hpath)
    mvcgen [hown, hmapped] with mpure_intro
    next hshown _ hrest =>
    refine ⟨fun x hx => ⟨d, hd, ?_⟩, fun f' d' hsource' => ?_⟩
    · rcases List.mem_append.1 hx with hx | hx
      · exact forall_of_forall₂ (hshown.imp fun _ _ => ShownAs.located) x hx
      · obtain ⟨found, hin, hx⟩ := List.mem_flatten.1 hx
        exact forall_of_forall₂ hrest found hin x hx
    · rw [hsource, Option.some.injEq, Prod.mk.injEq] at hsource'
      obtain ⟨rfl, rfl⟩ := hsource'
      exact ⟨_, _, rfl, hshown⟩

/-- **What there is to show** comes out, at a place in the document or at none. -/
theorem hover_spec (p : FilePosition) :
    ⦃⌜True⌝⦄ w.hover host p ⦃⇓ answer? => ⌜∀ x ∈ answer?, ∀ s ∈ x.span, w.Locates p.path s⌝⦄ := by
  unfold hover
  split
  · exact pure_spec fun x hx => by contradiction
  · next c offset d hplace =>
    obtain ⟨f, hf, hc, hd, hpath⟩ := of_generatedAt? hplace
    have hasked := lift_spec (ε := Unplaceable) (hhost.hover c.document offset)
    have hshown (span : Span) (hspan : span.Cuts d.text) :=
      checked_spec (m := m) hspan.located
    mvcgen [hasked, hshown] with try mpure_intro
    -- there is something to show only where the host knows something
    case vc1 => exact fun x hx => by contradiction
    -- it has a place only where its span comes back
    case vc2 =>
      rintro x ⟨⟩ s hs
      contradiction
    case vc3 hback hcuts =>
      obtain ⟨r, hr, hback⟩ := Option.bind_eq_some_iff.1 hback
      exact (h.copied_at hplaces hf hc hpath).sourceSpan_cuts (hcuts _ rfl r hr) hback
    case vc4 hlocates =>
      rintro x ⟨⟩ s ⟨⟩
      exact ⟨d, hd, hlocates⟩

/-- **What is offered** comes out, with edits at places in the document. -/
theorem completions_spec (p : FilePosition) :
    ⦃⌜True⌝⦄ w.completions host p
    ⦃⇓ offered => ⌜∀ x ∈ offered, ∀ edit ∈ x.edit, w.Locates p.path edit.1⌝⦄ := by
  unfold completions
  split
  · exact pure_spec fun x hx => absurd hx List.not_mem_nil
  · next c offset d hplace =>
    obtain ⟨f, hf, hc, hd, hpath⟩ := of_generatedAt? hplace
    refine asked_spec (hhost.completions c.document offset) fun offered hoffered => ?_
    refine exists_mapM fun x hx => ?_
    obtain ⟨shown, hshown, hlocates⟩ :=
      mappedCompletion_located (h.copied_at hplaces hf hc hpath) (hoffered x hx)
    exact ⟨shown, hshown, fun edit hedit => ⟨d, hd, hlocates edit hedit⟩⟩

omit hhost

/-- No source file lies where there is a generated document. -/
theorem InOrder.not_sameFile {owner : SourceFile} (howner : owner ∈ w.files) (hc : w.Lists c) :
    ¬ owner.path.SameFile c.path := by
  obtain ⟨f, hf, hc⟩ := hc
  obtain ⟨hplace, -⟩ := h.found owner howner
  obtain ⟨hplace', -⟩ := h.found f hf
  have hsettled := h.settled hf
  rintro ⟨hsame, -⟩
  rw [hplaces.normal _ hplace, (hsettled.inStep.placed hc).1] at hsame
  refine hplaces.apart owner.path f.path hplace hplace' ?_
  rw [hsame]
  exact hsettled.isGeneratedFrom (hplaces.normal _ hplace') hc

/-- **Each place that the host names** is brought back. -/
theorem InOrder.broughtBack {target : FileSpan} (haligned : w.Aligned target) :
    w.BroughtBack target (w.definitionTarget? target) := by
  have hiff {f : SourceFile} {c : VirtualCode} :=
    h.sourceForVirtual?_iff hplaces (p := target.path) (f := f) (c := c)
  unfold definitionTarget?
  cases hback : w.sourceForVirtual? target.path with
  | none =>
    have hnone (c : VirtualCode) (hc : w.Lists c) : ¬ target.path.SameFile c.path := by
      obtain ⟨f, hf, hc⟩ := hc
      intro hsame
      rw [hiff.2 ⟨hf, hc, hsame⟩] at hback
      contradiction
    refine ⟨fun f hf c hc hsame => absurd hsame (hnone c ⟨f, hf, hc⟩), fun _ => rfl, ?_⟩
    rintro answer ⟨⟩
    exact hnone
  | some back =>
    obtain ⟨owner, code⟩ := back
    obtain ⟨howner, hcode, hplace⟩ := hiff.1 hback
    have honly {f : SourceFile} (hf : f ∈ w.files) {c : VirtualCode} (hc : c ∈ f.codes)
        (hsame : target.path.SameFile c.path) : owner = f ∧ code = c := by
      have hback' := hiff.2 ⟨hf, hc, hsame⟩
      rwa [hback, Option.some.injEq, Prod.mk.injEq] at hback'
    refine ⟨fun f hf c hc hsame => ⟨?_, fun answer hanswer => ?_⟩,
      fun hnone => absurd hplace (hnone code ⟨owner, howner, hcode⟩), fun answer hanswer => ?_⟩
    -- there is only one document that the place is in
    · obtain ⟨rfl, rfl⟩ := honly hf hc hsame
      exact Option.map_eq_none_iff
    · obtain ⟨rfl, rfl⟩ := honly hf hc hsame
      obtain ⟨span, hspan, rfl⟩ := Option.map_eq_some_iff.1 hanswer
      obtain ⟨d, hd, hcopied⟩ := h.code_copied hplaces hf hc
      have hdocument := (h.coherent hplaces).documents code ⟨owner, hf, hc⟩
      rw [← document?_congr hplace.1] at hdocument
      exact ⟨rfl, d, hd, hcopied.sourceSpan_cuts (haligned _ hdocument) hspan⟩
    · obtain ⟨span, -, rfl⟩ := Option.map_eq_some_iff.1 hanswer
      exact fun c hc => h.not_sameFile hplaces howner hc

include hhost

/-- **Where all is in order** a workspace answers in the coordinates of its sources. -/
theorem InOrder.answeredInSource : w.AnsweredInSource host := by
  refine ⟨diagnostics_spec hplaces h hhost, hover_spec hplaces h hhost,
    completions_spec hplaces h hhost, fun p => ?_⟩
  unfold definition
  split
  · next hnone => exact .inl ⟨hnone, rfl⟩
  · next c offset d hplace =>
    refine .inr ⟨c, offset, d, hplace, bind_pure_comp _ _, ?_⟩
    have hasked := hhost.definition c.document offset
    mvcgen [hasked]
    exact SPred.pure_mono fun haligned x hx => h.broughtBack hplaces (haligned x hx)

omit hplaces h hhost

/-- **An editor gets answers in source coordinates, and gets them.** Whatever has been opened,
changed, updated and closed in a workspace that was empty, with every configuration and every disk,
at paths that do not get into each other's way, and whatever the host, if only its spans cut the
documents they are about: no question about findings, about what there is to show, and about what is
offered is refused, and all places in the answers are those of spans of the document that is asked
about; a definition in a generated document is answered by a place in its source as it is now, or
not at all if it has none there, and never by a place in a generated document. -/
theorem answered_in_source (config : Config) (disk : Disk) (actions : List Action)
    (hdisk : ∀ path text, disk.read? path = some text → text.Fits)
    (htexts : ∀ a ∈ actions, ∀ text ∈ a.text?, text.Fits) (hapart : Action.Apart actions)
    (host : Host m) (hhost : host.Aligned ((fresh config disk).run actions)) :
    ((fresh config disk).run actions).AnsweredInSource host :=
  (inOrder_run hapart.paths hdisk actions fun a ha => ⟨⟨a, ha, rfl⟩, htexts a ha⟩).answeredInSource
    hapart.paths hhost

/-- A host that has something to say about the front of every document, and to which all is defined
in two places, one in what is generated from `/p.mdx`. -/
def marking : Host Id where
  diagnostics _ := pure [⟨⟨0, 0⟩, .warn, "here"⟩]
  hover _ _ := pure (some ⟨some ⟨0, 0⟩, "here"⟩)
  definition _ _ := pure
    [⟨.ofString "/d/../p.mdx._mdx.md", ⟨0, 0⟩⟩, ⟨.ofString "/q.ts", ⟨0, 0⟩⟩]
  completions _ _ := pure [⟨"here", none, some (⟨0, 0⟩, "x")⟩]

/-- It is asked about a document that is open. The place in what is generated is that of the
document, and the other one stays as it is. -/
theorem answered_in_source_marking :
    let w := (fresh {} {}).run [.openDocument (.ofString "/p.mdx") ['b']]
    w.AnsweredInSource marking ∧
      (w.definition marking ⟨.ofString "/p.mdx", 0⟩).run
        = [⟨.ofString "/p.mdx", ⟨0, 0⟩⟩, ⟨.ofString "/q.ts", ⟨0, 0⟩⟩] := by
  intro w
  have hdisk (path : Path) (text : Text) (htext : ({} : Disk).read? path = some text) :
      text.Fits := by
    rw [Disk.read?_eq_none rfl] at htext
    contradiction
  have htexts : ∀ a ∈ [Action.openDocument (.ofString "/p.mdx") ['b']], ∀ text ∈ a.text?,
      text.Fits := by
    unfold Text.Fits
    decide
  have hapart : Action.Apart [.openDocument (.ofString "/p.mdx") ['b']] := by
    refine ⟨by decide, fun a ha b hb => ?_⟩
    rw [List.mem_singleton.1 ha, List.mem_singleton.1 hb]
    exact Path.not_isGeneratedFrom_self _
  have hcuts (text : Text) : (⟨0, 0⟩ : Span).Cuts text := Span.cuts_empty (isBoundary_zero text)
  have hhost : marking.Aligned w := by
    refine ⟨fun d => pure_spec ?_, fun d _ => pure_spec ?_, fun _ _ => pure_spec ?_,
      fun d _ => pure_spec ?_⟩
    all_goals simp [Aligned, hcuts]
  exact ⟨answered_in_source {} {} _ hdisk htexts hapart marking hhost, by decide +kernel⟩

end Workspace

end

end HybridMarkup
