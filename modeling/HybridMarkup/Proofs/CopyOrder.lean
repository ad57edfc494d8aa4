/-
No copy is hidden by what is mapped before it.

A question to a source map is answered by the first mapping that has an answer, so what matters to
a copy is what is listed before it. `Unhidden` says that nothing there gets in its way: the sources
of the two have nothing in common, and in the generated text the earlier one ends before the copy
begins. The second is how a text is made, from its start to its end. The first is a matter of the
tree. What is mapped of a node lies within it, the nodes that anything is mapped of have nothing
below them, and two such nodes have nothing in common (`Draft.Laid.apart_of_ne`).

In prose that is all, since the emitters follow the document. The script of a template is made in
two rounds, and what is mapped in the second stands before, between and behind what was mapped in
the first.
-/
import HybridMarkup.Proofs.TemplateCopies
import HybridMarkup.Proofs.TreeWellFormed
import Mathlib.Data.List.Nodup

set_option autoImplicit false

namespace HybridMarkup

open Text

/-! ## Nodes of a finished draft -/

namespace Draft

variable {d : Draft} {text : Text} {pos : Nat}

/-- Where nothing is open but the root, a node lies within its parent. -/
theorem Laid.within {i p : Nat} (h : d.Laid text pos) (hroot : d.current = Tree.root)
    (hp : d.tree.parent i = some p) :
    (d.tree.span p).start ≤ (d.tree.span i).start ∧
      (d.tree.span i).stop ≤ (d.tree.span p).stop := by
  refine ⟨h.starts i p hp, h.inside i p hp fun hunder => ?_⟩
  rw [hroot] at hunder
  exact h.ne_root_of_parent hp (hunder.eq_of_orphan h.shape.root)

/-- A later node stands under an earlier one, or behind it. -/
theorem Laid.under_or_behind (h : d.Laid text pos) (hroot : d.current = Tree.root) (n : Nat) :
    ∀ {i j : Nat}, i + j < n → i < j → j < d.tree.size →
      d.tree.Under j i ∨ (d.tree.span i).stop ≤ (d.tree.span j).start := by
  induction n with
  | zero => exact fun hn => absurd hn (Nat.not_lt_zero _)
  | succ n ih =>
    intro i j hn hij hj
    obtain ⟨q, hqj, hq⟩ := h.shape.older j (by omega) hj
    have hstart := (h.within hroot hq).1
    rcases Nat.lt_trichotomy i q with hiq | rfl | hiq
    -- the parent of the later node is later itself
    · rcases ih (show i + q < n by omega) hiq (by omega) with hunder | hbehind
      · exact .inl (.of_parent hq hunder)
      · exact .inr (Nat.le_trans hbehind hstart)
    · exact .inl (.of_parent hq (.refl _ i))
    -- the earlier node is below that parent too: a sibling, or under an earlier node than the later
    · obtain ⟨r, hqr, hr⟩ := h.shape.nested j i q hq hiq hij
      have hri := h.shape.parent_lt hr
      rcases Nat.eq_or_lt_of_le hqr with rfl | hqr
      · exact .inr (h.apart i j q hr hq hij)
      · rcases ih (show r + j < n by omega) (by omega) hj with hunder | hbehind
        · rcases hunder.cases_parent hq with rfl | hunder
          · omega
          · have := hunder.le h.shape
            omega
        · exact .inr (Nat.le_trans (h.within hroot hr).2 hbehind)

/-- **Two nodes that have nothing below them have nothing in common.** -/
theorem Laid.apart_of_ne {i j : Nat} (h : d.Laid text pos) (hroot : d.current = Tree.root)
    (hi : ∀ c : Nat, d.tree.parent c ≠ some i) (hj : ∀ c : Nat, d.tree.parent c ≠ some j)
    (hne : i ≠ j) (hisize : i < d.tree.size) (hjsize : j < d.tree.size) :
    (d.tree.span i).Apart (d.tree.span j) := by
  -- what stands under a node without children is the node itself
  have hself {a b : Nat} (hb : ∀ c : Nat, d.tree.parent c ≠ some b) (hunder : d.tree.Under a b) :
      a = b := by
    rcases Relation.ReflTransGen.cases_tail hunder with heq | ⟨c, _, hc⟩
    · exact heq.symm
    · exact absurd hc (hb c)
  rcases Nat.lt_or_gt_of_ne hne with hlt | hlt
  · rcases h.under_or_behind hroot _ (Nat.lt_succ_self (i + j)) hlt hjsize with hunder | hbehind
    · exact absurd (hself hi hunder).symm hne
    · exact .inl hbehind
  · rcases h.under_or_behind hroot _ (Nat.lt_succ_self (j + i)) hlt hisize with hunder | hbehind
    · exact absurd (hself hj hunder) hne
    · exact .inr hbehind

/-- **Going through the children of a node** one comes from its start to its end, if at each child
one comes from the start of the child to its end. -/
theorem Laid.foldl_children {β : Type} {I : Nat → β → Prop} {f : β → Nat → β}
    (h : d.Laid text pos) (hroot : d.current = Tree.root)
    (mono : ∀ p q b, p ≤ q → I p b → I q b)
    (step : ∀ b (c : Nat), I (d.tree.span c).start b → I (d.tree.span c).stop (f b c)) (i : Nat)
    {b : β} (hb : I (d.tree.span i).start b) :
    I (d.tree.span i).stop ((d.tree.children i).foldl f b) := by
  have hwell := h.wellFormed hroot
  have hlist (l : List Nat) : ∀ (p : Nat) (b : β), p ≤ (d.tree.span i).stop → I p b →
      (∀ c ∈ l, p ≤ (d.tree.span c).start ∧ (d.tree.span c).stop ≤ (d.tree.span i).stop) →
      l.Pairwise (fun c c' => (d.tree.span c).stop ≤ (d.tree.span c').start) →
      I (d.tree.span i).stop (l.foldl f b) := by
    induction l with
    | nil => exact fun p b hp hb _ _ => mono _ _ _ hp hb
    | cons c l ih =>
      intro p b hp hb hwithin hordered
      obtain ⟨hfirst, hrest⟩ := List.pairwise_cons.1 hordered
      obtain ⟨hpc, hci⟩ := hwithin c List.mem_cons_self
      refine ih (d.tree.span c).stop _ hci (step b c (mono _ _ _ hpc hb)) (fun c' hc' => ?_) hrest
      exact ⟨hfirst c' hc', (hwithin c' (List.mem_cons_of_mem _ hc')).2⟩
  refine hlist (d.tree.children i) _ b (h.ordered i) hb (fun c hc => ?_) (hwell.apart i)
  exact h.within hroot ((hwell.linked c i).1 hc)

end Draft

/-! ## Lists of mappings -/

/-- No copy is hidden: from all that is listed before it, it is apart in the source, and it begins
behind it in the generated text. -/
def Unhidden (mappings : List Mapping) : Prop :=
  mappings.Pairwise fun a b =>
    b.mode = .offset → a.source.Apart b.source ∧ a.mapped.stop ≤ b.mapped.start

/-- Spans that are apart stay apart when one of them shrinks. -/
theorem Span.Apart.shrink {s s' s'' : Span} (h : s.Apart s') (hstart : s'.start ≤ s''.start)
    (hstop : s''.stop ≤ s'.stop) : s.Apart s'' := by
  rcases h with h | h
  · exact .inl (Nat.le_trans h hstart)
  · exact .inr (Nat.le_trans hstop h)

namespace CodeGen

variable {g : CodeGen}

/-- A text in the making in which no copy is hidden, and all that is mapped so far is within it. -/
structure Ordered (g : CodeGen) : Prop where
  unhidden : Unhidden g.mappings
  reached : ∀ m ∈ g.mappings, m.mapped.stop ≤ g.size

theorem ordered_empty : ({} : CodeGen).Ordered := ⟨.nil, fun _ h => absurd h List.not_mem_nil⟩

theorem size_addText (g : CodeGen) (text : Text) : (g.addText text).size = g.size + Text.size text :=
  size_append ..

theorem Ordered.addText (h : g.Ordered) (text : Text) : (g.addText text).Ordered := by
  refine ⟨h.unhidden, fun m hm => ?_⟩
  rw [size_addText]
  exact Nat.le_trans (h.reached m hm) (Nat.le_add_right _ _)

/-- What is not a copy may be mapped at any place that is reached. -/
theorem Ordered.addMapping {m : Mapping} (h : g.Ordered) (hmode : m.mode ≠ .offset)
    (hmapped : m.mapped.stop ≤ g.size) : (g.addMapping m).Ordered := by
  refine ⟨List.pairwise_append.2 ⟨h.unhidden, List.pairwise_singleton _ _, ?_⟩, ?_⟩
  · intro a _ b hb hoffset
    rw [List.mem_singleton.1 hb] at hoffset
    exact absurd hoffset hmode
  · intro m' hm'
    rcases List.mem_append.1 hm' with hm' | hm'
    · exact h.reached m' hm'
    · rw [List.mem_singleton.1 hm']
      exact hmapped

/-- **A copy is added behind all that is there**, so only its source has to be apart. -/
theorem Ordered.addCode (h : g.Ordered) (text : Text) (span : Span)
    (hapart : ∀ m ∈ g.mappings, m.source.Apart span) : (g.addCode text .offset span).Ordered := by
  refine ⟨List.pairwise_append.2 ⟨h.unhidden, List.pairwise_singleton _ _, ?_⟩, ?_⟩
  · intro a ha b hb _
    rw [List.mem_singleton.1 hb]
    exact ⟨hapart a ha, h.reached a ha⟩
  · intro m hm
    rcases List.mem_append.1 hm with hm | hm
    · exact (h.addText text).reached m hm
    · rw [List.mem_singleton.1 hm]
      exact Nat.le_of_eq (size_addText g text).symm

end CodeGen

/-! ## Prose -/

namespace ProseArtifacts

variable {d : Draft} {text fileName : Text} {out : Output} {pos p q : Nat}

/-- What has been dealt out stands in front of a place in the document. -/
structure Output.UpTo (p : Nat) (out : Output) : Prop where
  script : out.script.Ordered
  prose : out.prose.Ordered
  blocks : ∀ block ∈ out.blocks, block.2.Ordered
  scriptBefore : ∀ m ∈ out.script.mappings, m.source.stop ≤ p
  proseBefore : ∀ m ∈ out.prose.mappings, m.source.stop ≤ p

theorem Output.UpTo.mono (h : out.UpTo p) (hle : p ≤ q) : out.UpTo q :=
  { h with
    scriptBefore := fun m hm => Nat.le_trans (h.scriptBefore m hm) hle
    proseBefore := fun m hm => Nat.le_trans (h.proseBefore m hm) hle }

/-- One more mapping, the source of which ends in front of `q`. -/
theorem before_append {ms : List Mapping} {m : Mapping} (h : ∀ m ∈ ms, m.source.stop ≤ p)
    (hpq : p ≤ q) (hm : m.source.stop ≤ q) : ∀ m' ∈ ms ++ [m], m'.source.stop ≤ q := by
  intro m' hm'
  rcases List.mem_append.1 hm' with hm' | hm'
  · exact Nat.le_trans (h m' hm') hpq
  · rw [List.mem_singleton.1 hm']
    exact hm

theorem apart_of_before {ms : List Mapping} {span : Span} (h : ∀ m ∈ ms, m.source.stop ≤ p)
    (hp : p ≤ span.start) : ∀ m ∈ ms, m.source.Apart span :=
  fun m hm => .inl (Nat.le_trans (h m hm) hp)

theorem statement_upTo (h : out.UpTo p) (code : Text) {span : Span} (hp : p ≤ span.start)
    (hordered : span.start ≤ span.stop) : (statement out code span).UpTo span.stop := by
  have hle : p ≤ span.stop := Nat.le_trans hp hordered
  refine ⟨?_, h.prose, h.blocks, ?_, (h.mono hle).proseBefore⟩
  · exact (h.script.addCode code span (apart_of_before h.scriptBefore hp)).addText _
  · exact before_append h.scriptBefore hle (Nat.le_refl _)

/-- The whole is mapped behind its own inner part. -/
theorem expression_upTo (h : out.UpTo p) (code : Text) {inner whole : Span}
    (hp : p ≤ whole.start) (hstart : whole.start ≤ inner.start) (hstop : inner.stop ≤ whole.stop)
    (hordered : whole.start ≤ whole.stop) :
    (expression out code inner whole).UpTo whole.stop := by
  have hle : p ≤ whole.stop := Nat.le_trans hp hordered
  have hcopy := (h.script.addText ['{']).addCode code inner
    (apart_of_before h.scriptBefore (Nat.le_trans hp hstart))
  refine ⟨?_, h.prose, h.blocks, ?_, (h.mono hle).proseBefore⟩
  · exact ((hcopy.addText ['}']).addMapping (by simp) (Nat.le_refl _)).addText _
  · exact before_append (before_append h.scriptBefore hle hstop) (Nat.le_refl _) (Nat.le_refl _)

theorem hostBlock_upTo (h : out.UpTo p) {block : CodeBlock} {start : Nat}
    {language : HostLanguage} (hle : p ≤ q) (hopener : block.openerEnd ≤ q) :
    (hostBlock fileName out block start language).UpTo q := by
  refine ⟨?_, h.prose, ?_, ?_, (h.mono hle).proseBefore⟩
  · refine (h.script.addText _).addMapping (by simp) ?_
    exact Nat.le_of_eq (CodeGen.size_addText ..).symm
  · intro b hb
    rcases List.mem_append.1 hb with hb | hb
    · exact h.blocks b hb
    · rw [List.mem_singleton.1 hb]
      exact (CodeGen.ordered_empty.addCode _ _ fun m hm => absurd hm List.not_mem_nil).addText _
  · exact before_append h.scriptBefore hle hopener

theorem foreignBlock_upTo (h : out.UpTo p) {block : CodeBlock} (hle : p ≤ q)
    (hp : p ≤ block.contentSpan.start) (hcontent : block.contentSpan.stop ≤ q) :
    (foreignBlock out block).UpTo q := by
  have hcopy := (h.prose.addText (fence ++ block.lang.getD [] ++ ['\n'])).addCode block.text
    block.contentSpan (apart_of_before h.proseBefore hp)
  refine ⟨h.script, hcopy.addText _, h.blocks, (h.mono hle).scriptBefore, ?_⟩
  exact before_append h.proseBefore hle hcontent

/-- **A node is dealt out from its start to its end.** -/
theorem emit_upTo (h : d.Laid text pos) (hroot : d.current = Tree.root) (fuel : Nat) :
    ∀ {out : Output} (id : Nat), out.UpTo (d.tree.span id).start →
      (emit d.tree fileName fuel out id).UpTo (d.tree.span id).stop := by
  induction fuel with
  | zero => exact fun id hout => hout.mono (h.ordered id)
  | succ fuel ih =>
    intro out id hout
    have hordered := h.ordered id
    have hparts := h.parts id
    unfold emit
    split
    · have hchildren := h.foldl_children hroot (I := fun p out => Output.UpTo p out)
        (f := emit d.tree fileName fuel) (fun _ _ _ hle hout => hout.mono hle)
        (fun out c hout => ih c hout) id hout
      exact { hchildren with prose := hchildren.prose.addText _ }
    · refine ⟨hout.script, ?_, hout.blocks, (hout.mono hordered).scriptBefore, ?_⟩
      · exact hout.prose.addCode _ _ (apart_of_before hout.proseBefore (Nat.le_refl _))
      · exact before_append hout.proseBefore hordered (Nat.le_refl _)
    · exact statement_upTo hout _ (Nat.le_refl _) hordered
    · exact statement_upTo hout _ (Nat.le_refl _) hordered
    · next code inner inline hdata =>
      rw [hdata] at hparts
      obtain ⟨hstart, hstop⟩ := hparts inner (List.mem_singleton_self _)
      exact expression_upTo hout _ (Nat.le_refl _) hstart hstop hordered
    · next block hdata =>
      rw [hdata] at hparts
      obtain ⟨hstart, hstop⟩ := hparts block.contentSpan List.mem_cons_self
      obtain ⟨_, hopener⟩ := hparts (Span.empty block.openerEnd)
        (List.mem_cons_of_mem _ (List.mem_singleton_self _))
      split
      · exact hostBlock_upTo hout hordered hopener
      · exact foreignBlock_upTo hout hordered hstart hstop
    · exact hout.mono hordered

/-- No copy is hidden in an artifact of prose. -/
theorem ofTree_unhidden (h : d.Laid text pos) (hroot : d.current = Tree.root) (fileName : Text) :
    ∀ a ∈ ofTree d.tree fileName, Unhidden a.mappings := by
  have hnone : ∀ m ∈ ([] : List Mapping), m.source.stop ≤ (d.tree.span Tree.root).start :=
    fun _ hm => absurd hm List.not_mem_nil
  have hstart : ({ script := CodeGen.addText {} scriptOpening } : Output).UpTo
      (d.tree.span Tree.root).start :=
    ⟨CodeGen.ordered_empty.addText _, CodeGen.ordered_empty,
      fun _ hb => absurd hb List.not_mem_nil, hnone, hnone⟩
  have hdealt := h.foldl_children hroot (I := fun p out => Output.UpTo p out)
    (f := emit d.tree fileName d.tree.size) (fun _ _ _ hle hout => hout.mono hle)
    (fun out c hout => emit_upTo h hroot _ c hout) Tree.root hstart
  have hblocks (blocks : List (Text × CodeGen)) (hall : ∀ block ∈ blocks, block.2.Ordered) :
      ∀ index, ∀ a ∈ blockArtifacts index blocks, Unhidden a.mappings := by
    induction blocks with
    | nil => exact fun _ a ha => absurd ha List.not_mem_nil
    | cons block blocks ih =>
      intro index a ha
      rcases List.mem_cons.1 ha with rfl | ha
      · exact (hall block List.mem_cons_self).unhidden
      · exact ih (fun b hb => hall b (List.mem_cons_of_mem _ hb)) (index + 1) a ha
  intro a ha
  rcases List.mem_append.1 ha with ha | ha
  · rcases List.mem_append.1 ha with ha | ha
    · exact hblocks _ hdealt.blocks 0 a ha
    · rcases List.mem_cons.1 ha with rfl | ha
      · exact hdealt.script.unhidden
      · rw [List.mem_singleton.1 ha]
        exact hdealt.prose.unhidden
  · split at ha
    · rw [List.mem_singleton.1 ha]
      exact .nil
    · exact absurd ha List.not_mem_nil

end ProseArtifacts

/-! ## Templates -/

namespace TemplateArtifact

variable {d : Draft} {text : Text} {pos p q : Nat}

/-- The nodes that code is taken from have nothing below them. -/
def Childless (t : Tree) : Prop :=
  ∀ i c : Nat, (t.kind i = .rawText ∨ t.kind i = .mustache ∨ t.kind i = .directive) →
    t.parent c ≠ some i

theorem childless_of_stands {path : List NodeKind} {xs : List Piece}
    (h : d.Stands pieces .template text pos path xs) : Childless d.tree := by
  intro i c hkind hc
  have hnests := (h.nests c i hc).1
  rcases hkind with hkind | hkind | hkind <;> rw [hkind] at hnests <;> simp [Dialect.nests] at hnests

/-- What is kept from node to node in a list without repetitions is kept through all of it. -/
theorem foldl_nodup {β : Type} {J : List Nat → β → Prop} {f : β → Nat → β}
    (step : ∀ done b i, i ∉ done → J done b → J (done ++ [i]) (f b i)) {l : List Nat}
    (hnodup : l.Nodup) {b : β} (hb : J [] b) : J l (l.foldl f b) := by
  have hlist (l : List Nat) : ∀ done b, (done ++ l).Nodup → J done b →
      J (done ++ l) (l.foldl f b) := by
    induction l with
    | nil =>
      intro done b _ hb
      rwa [List.append_nil]
    | cons i l ih =>
      intro done b hnodup hb
      have hi : i ∉ done := fun hmem =>
        (List.nodup_append.1 hnodup).2.2 i hmem i List.mem_cons_self rfl
      rw [List.append_cons] at hnodup ⊢
      exact ih (done ++ [i]) (f b i) hnodup (step done b i hi hb)
  exact hlist l [] b hnodup hb

/-! ### The first round -/

/-- The nodes that the first round goes to. -/
def bodyNodes (t : Tree) : List Nat :=
  t.preorder.flatMap fun p => if t.rawElement? p = some .script then t.children p else []

theorem foldl_scriptElement (t : Tree) (out : Output) :
    t.preorder.foldl (scriptElement t) out = (bodyNodes t).foldl (scriptChild t) out := by
  have hstep (out : Output) (p : Nat) : scriptElement t out p
      = (if t.rawElement? p = some .script then t.children p else []).foldl (scriptChild t) out := by
    unfold scriptElement Tree.rawElement?
    cases t.data p with
    | element e =>
      dsimp only
      split <;> rfl
    | _ => rfl
  rw [bodyNodes, List.foldl_flatMap]
  congr 1
  funext out p
  exact hstep out p

/-- No node has two parents. -/
theorem bodyNodes_nodup {t : Tree} (h : t.WellFormed text) : (bodyNodes t).Nodup := by
  have hchildren (p : Nat) : (t.children p).Nodup := by
    refine List.nodup_iff_getElem?_ne_getElem?.2 fun k k' hlt hk' hsame => ?_
    -- a child stands at its slot only
    rw [List.getElem?_eq_getElem hk'] at hsame
    have hfirst := ((h.slotted _ p k).1 hsame).2
    have hsecond := ((h.slotted _ p k').1 (List.getElem?_eq_getElem hk')).2
    omega
  rw [bodyNodes, List.nodup_flatMap, h.preorder_eq]
  refine ⟨fun p _ => ?_, ?_⟩
  · split
    · exact hchildren p
    · exact List.nodup_nil
  · refine List.nodup_range.imp fun {p q} hpq i hp hq => ?_
    dsimp only at hp hq
    split at hp
    · split at hq
      · have hparent := (h.linked i p).1 hp
        rw [(h.linked i q).1 hq, Option.some.injEq] at hparent
        exact hpq hparent.symm
      · exact absurd hq List.not_mem_nil
    · exact absurd hp List.not_mem_nil

/-- Everything mapped in the first round is the body of one of these nodes. -/
def BodiesOf (t : Tree) (nodes : List Nat) (script : CodeGen) : Prop :=
  ∀ m ∈ script.mappings, ∃ i ∈ nodes, t.kind i = .rawText ∧ m.source = t.span i

theorem BodiesOf.mono {t : Tree} {nodes nodes' : List Nat} {script : CodeGen}
    (h : BodiesOf t nodes script) (hle : ∀ i ∈ nodes, i ∈ nodes') : BodiesOf t nodes' script := by
  intro m hm
  obtain ⟨i, hi, hrest⟩ := h m hm
  exact ⟨i, hle i hi, hrest⟩

/-- **The first round**: bodies of different elements are apart. -/
theorem firstRound_ordered (h : d.Laid text pos) (hroot : d.current = Tree.root)
    (hchildless : Childless d.tree) :
    (d.tree.preorder.foldl (scriptElement d.tree) {}).script.Ordered ∧
      BodiesOf d.tree (bodyNodes d.tree)
        (d.tree.preorder.foldl (scriptElement d.tree) {}).script := by
  rw [foldl_scriptElement]
  refine foldl_nodup (f := scriptChild d.tree)
    (J := fun done (out : Output) => out.script.Ordered ∧ BodiesOf d.tree done out.script)
    ?_ (bodyNodes_nodup (h.wellFormed hroot))
    ⟨CodeGen.ordered_empty, fun m hm => absurd hm List.not_mem_nil⟩
  rintro done out i hi ⟨hordered, hbodies⟩
  have hgrown := hbodies.mono fun j hj => List.mem_append_left [i] hj
  unfold scriptChild
  split
  · split
    · exact ⟨hordered, hgrown⟩
    · exact ⟨hordered, hgrown⟩
  · next body hdata =>
    have hkind : d.tree.kind i = .rawText := Tree.kind_of_data hdata
    refine ⟨(CodeGen.Ordered.addCode hordered _ _ fun m hm => ?_).addText _, fun m hm => ?_⟩
    · obtain ⟨j, hj, hjkind, hsource⟩ := hbodies m hm
      rw [hsource]
      refine h.apart_of_ne hroot (fun c => hchildless j c (.inl hjkind))
        (fun c => hchildless i c (.inl hkind)) (fun heq => hi (heq ▸ hj)) ?_ ?_
      · exact Tree.lt_size_of_kind (by rw [hjkind]; decide)
      · exact Tree.lt_size_of_kind (by rw [hkind]; decide)
    · rcases List.mem_append.1 hm with hm | hm
      · exact hgrown m hm
      · rw [List.mem_singleton.1 hm]
        exact ⟨i, List.mem_append_right _ (List.mem_singleton_self i), hkind, rfl⟩
  · exact ⟨hordered, hgrown⟩

/-! ### The second round -/

/-- What the second round has added stands in front of a place in the document; all else are
bodies. -/
structure UpTo (t : Tree) (p : Nat) (script : CodeGen) : Prop where
  ordered : script.Ordered
  before : ∀ m ∈ script.mappings,
    m.source.stop ≤ p ∨ ∃ i, t.kind i = .rawText ∧ m.source = t.span i

theorem UpTo.mono {t : Tree} {script : CodeGen} (h : UpTo t p script) (hle : p ≤ q) :
    UpTo t q script :=
  ⟨h.ordered, fun m hm => (h.before m hm).imp_left fun hp => Nat.le_trans hp hle⟩

/-- One more mapping, the source of which ends in front of `q`. -/
theorem UpTo.before_append {t : Tree} {script : CodeGen} {m : Mapping} (h : UpTo t p script)
    (hle : p ≤ q) (hm : m.source.stop ≤ q) : ∀ m' ∈ script.mappings ++ [m],
      m'.source.stop ≤ q ∨ ∃ i, t.kind i = .rawText ∧ m'.source = t.span i := by
  intro m' hm'
  rcases List.mem_append.1 hm' with hm' | hm'
  · exact (h.mono hle).before m' hm'
  · rw [List.mem_singleton.1 hm']
    exact .inl hm

/-- Code of a node with nothing below it is apart from all bodies, and from all that is in front of
the node. -/
theorem embed_upTo (h : d.Laid text pos) (hroot : d.current = Tree.root)
    (hchildless : Childless d.tree) {script : CodeGen} {id : Nat} {inner : Span} (code : Text)
    (hkind : d.tree.kind id = .mustache ∨ d.tree.kind id = .directive)
    (hscript : UpTo d.tree (d.tree.span id).start script)
    (hinner : (d.tree.span id).start ≤ inner.start ∧ inner.stop ≤ (d.tree.span id).stop) :
    UpTo d.tree (d.tree.span id).stop (embed script code inner) := by
  refine ⟨((hscript.ordered.addText opening).addCode code inner fun m hm => ?_).addText closing,
    hscript.before_append (h.ordered id) hinner.2⟩
  rcases hscript.before m hm with hbefore | ⟨i, hi, hsource⟩
  · exact .inl (Nat.le_trans hbefore hinner.1)
  · rw [hsource]
    refine Span.Apart.shrink (h.apart_of_ne hroot (fun c => hchildless i c (.inl hi))
      (fun c => hchildless id c (.inr hkind)) ?_ ?_ ?_) hinner.1 hinner.2
    · rintro rfl
      rw [hi] at hkind
      simp at hkind
    · exact Tree.lt_size_of_kind (by rw [hi]; decide)
    · exact Tree.lt_size_of_kind (by rcases hkind with hkind | hkind <;> rw [hkind] <;> decide)

/-- The name of a directive ends with its node at the latest. -/
theorem nameSpan_stop_le {t : Tree} {id : Nat} (hcuts : (t.span id).Cuts t.text) :
    (nameSpan t id).stop ≤ (t.span id).stop := by
  have hname : Text.size (((Text.cutAt? '=' (t.nodeText id)).map Prod.fst).getD (t.nodeText id))
      ≤ Text.size (t.nodeText id) := by
    cases hcut : Text.cutAt? '=' (t.nodeText id) with
    | none => exact Nat.le_refl _
    | some parts =>
      conv => rhs; rw [Text.cutAt?_append hcut, size_append]
      exact Nat.le_add_right _ _
  have hnode : Text.size (t.nodeText id) = (t.span id).length := hcuts.size_slice
  have hstop := hcuts.ordered
  rw [hnode] at hname
  show (t.span id).start + _ ≤ (t.span id).stop
  unfold Span.length at hname
  omega

theorem emit_upTo (h : d.Laid text pos) (hroot : d.current = Tree.root)
    (hsound : d.tree.Sound text) (hchildless : Childless d.tree) (fuel : Nat) :
    ∀ {script : CodeGen} (id : Nat), UpTo d.tree (d.tree.span id).start script →
      UpTo d.tree (d.tree.span id).stop (emit d.tree fuel script id) := by
  induction fuel with
  | zero => exact fun id hscript => hscript.mono (h.ordered id)
  | succ fuel ih =>
    intro script id hscript
    have hparts := h.parts id
    have hchildren := h.foldl_children hroot (I := UpTo d.tree) (f := emit d.tree fuel)
      (fun _ _ _ hle hscript => hscript.mono hle) (fun _ c hscript => ih c hscript) id hscript
    unfold emit
    split
    · split
      · exact hscript.mono (h.ordered id)
      · exact hchildren
    · exact hchildren
    · next code inner hdata =>
      rw [hdata] at hparts
      exact embed_upTo h hroot hchildless code (.inl (Tree.kind_of_data hdata)) hscript
        (hparts inner (List.mem_singleton_self _))
    · next directive hdata =>
      rw [hdata] at hparts
      unfold embedDirective
      split
      · next value valueSpan hvalue hspan =>
        have hembedded := embed_upTo h hroot hchildless value (.inr (Tree.kind_of_data hdata))
          hscript (hparts valueSpan (by simp [NodeData.parts, hspan]))
        obtain ⟨hcuts, _⟩ := hsound.node id (by rw [hdata]; simp)
        rw [← hsound.text_eq] at hcuts
        exact ⟨hembedded.ordered.addMapping (by simp) (Nat.le_refl _),
          hembedded.before_append (Nat.le_refl _) (nameSpan_stop_le hcuts)⟩
      · exact hscript.mono (h.ordered id)
    · exact hscript.mono (h.ordered id)

/-- No copy is hidden in the script of a template. -/
theorem ofTree_unhidden {path : List NodeKind} {xs : List Piece} (h : d.Laid text pos)
    (hroot : d.current = Tree.root) (hstands : d.Stands pieces .template text q path xs)
    (fileName : Text) : Unhidden (ofTree d.tree fileName).mappings := by
  have hchildless := childless_of_stands hstands
  obtain ⟨hordered, hbodies⟩ := firstRound_ordered h hroot hchildless
  have hfirst : UpTo d.tree (d.tree.span Tree.root).start
      (d.tree.preorder.foldl (scriptElement d.tree) {}).script := by
    refine ⟨hordered, fun m hm => ?_⟩
    obtain ⟨i, _, hrest⟩ := hbodies m hm
    exact .inr ⟨i, hrest⟩
  exact (h.foldl_children hroot (I := UpTo d.tree) (f := emit d.tree d.tree.size)
    (fun _ _ _ hle hscript => hscript.mono hle)
    (fun _ c hscript => emit_upTo h hroot hstands.tree_sound hchildless _ c hscript)
    Tree.root hfirst).ordered.unhidden

end TemplateArtifact

/-! ## All artifacts -/

/-- What holds of the artifact of a template and of those of prose holds of all. -/
theorem Tree.forall_artifacts {P : Artifact → Prop} {t : Tree} {fileName : Text}
    (template : t.dialect = .template → P (TemplateArtifact.ofTree t fileName))
    (prose : t.dialect ≠ .template → ∀ a ∈ ProseArtifacts.ofTree t fileName, P a) :
    ∀ a ∈ t.artifacts fileName, P a := by
  intro a ha
  unfold Tree.artifacts at ha
  split at ha
  · next hdialect =>
    rw [List.mem_singleton.1 ha]
    exact template hdialect
  · next hdialect => exact prose (by rw [hdialect]; decide) a ha
  · next hdialect => exact prose (by rw [hdialect]; decide) a ha

/-- **No copy is hidden in an artifact of a document.** -/
theorem Parse.artifacts_unhidden (dialect : Dialect) (text fileName : Text) :
    ∀ a ∈ (Parse.draft dialect text).tree.artifacts fileName, Unhidden a.mappings := by
  obtain ⟨hlaid, hroot⟩ := Parse.draft_laid dialect text
  refine Tree.forall_artifacts (fun hdialect => ?_) fun _ =>
    ProseArtifacts.ofTree_unhidden hlaid hroot fileName
  rw [(Parse.tree_sound dialect text).2] at hdialect
  subst hdialect
  obtain ⟨_, _, hstands⟩ := TemplateArtifact.pieces_of_tree text
  exact TemplateArtifact.ofTree_unhidden hlaid hroot hstands fileName

end HybridMarkup
