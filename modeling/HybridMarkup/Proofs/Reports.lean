/-
What is reported of a document lies between characters of it.

A fault is reported at the place of a token, or between two places that the draft has taken note of:
where a node begins, where a start tag ends, where an end tag begins. `Draft.Aligned` says that all
of these are cuts of the text, and that nothing begins behind the place that is reached; so whatever
is put together from two of them, the first not behind the second, is a span of the text. It is
carried through a parse beside the layout of the tree, which it needs in one case only: an end tag
closes at the place where it began, and the nodes it closes have begun before.

Main statement: `Parse.diagnostics_cut`, for every configuration and every text, the findings of the
lint rules included.
-/
import HybridMarkup.Proofs.FaithfulArtifacts
import HybridMarkup.Proofs.TreeWellFormed

set_option autoImplicit false

namespace HybridMarkup

open Text

/-! ## The sink -/

/-- Every entry has a span of the text. -/
def Diagnostics.Cut (s : Diagnostics) (text : Text) : Prop :=
  ∀ x ∈ s.newestFirst, x.span.Cuts text

/-- An entry that is merged into another one covers no more than the two. -/
theorem Diagnostics.Cut.push {s : Diagnostics} {text : Text} (h : s.Cut text) {x : Diagnostic}
    (hx : x.span.Cuts text) : (s.push x).Cut text := by
  unfold Diagnostics.Cut at h
  unfold Diagnostics.push
  split
  · next hnil => simpa [Diagnostics.Cut] using hx
  · next last older heq =>
    rw [heq] at h
    have hlast : last.span.Cuts text := h last List.mem_cons_self
    split
    · intro y hy
      rcases List.mem_cons.1 hy with rfl | hy
      · exact hlast.cover hx
      · exact h y (List.mem_cons_of_mem _ hy)
    · intro y hy
      rcases List.mem_cons.1 hy with rfl | hy
      · exact hx
      · exact h y hy

/-- Where the start tag of an element ends, if that is known. -/
def NodeData.startTagEnd? : NodeData → Option Nat
  | .element e => e.startTagEnd
  | _ => none

namespace Draft

variable {text : Text} {pos pos' : Nat} {d : Draft} {t : Token}

/-! ## The invariant -/

/-- All that could be reported lies between characters of the text: the nodes, which have begun at
`pos` at the latest, the start tags, and the end tag that is read. So does what was reported. -/
structure Aligned (text : Text) (pos : Nat) (d : Draft) : Prop where
  spans : ∀ i : Nat, (d.tree.span i).Cuts text ∧ (d.tree.span i).start ≤ pos
  startTags : ∀ i n : Nat, (d.tree.data i).startTagEnd? = some n →
    (⟨(d.tree.span i).start, n⟩ : Span).Cuts text
  endTag : isBoundary d.endTagStart text = true
  reported : d.diagnostics.Cut text

theorem Aligned.mono (h : d.Aligned text pos) (hle : pos ≤ pos') : d.Aligned text pos' :=
  { h with spans := fun i => ⟨(h.spans i).1, Nat.le_trans (h.spans i).2 hle⟩ }

/-- A node may end at any cut that is not in front of what is reached. -/
theorem Aligned.upTo (h : d.Aligned text pos) (i : Nat) {stop : Nat}
    (hstop : isBoundary stop text = true) (hle : pos ≤ stop) :
    (⟨(d.tree.span i).start, stop⟩ : Span).Cuts text :=
  (h.spans i).1.stretch hstop (Nat.le_trans (h.spans i).2 hle)

theorem Aligned.push (h : d.Aligned text pos) {x : Diagnostic} (hx : x.span.Cuts text) :
    ({ d with diagnostics := d.diagnostics.push x } : Draft).Aligned text pos :=
  { h with reported := h.reported.push hx }

theorem Aligned.report (h : d.Aligned text pos) (error : ParseError) {span : Span}
    (hspan : span.Cuts text) : (d.report error span).Aligned text pos :=
  h.push hspan

theorem Aligned.setData {i : Nat} {data : NodeData} (h : d.Aligned text pos)
    (hdata : ∀ n, data.startTagEnd? = some n → (⟨(d.tree.span i).start, n⟩ : Span).Cuts text) :
    (d.setData i data).Aligned text pos := by
  have hspan (j : Nat) : (d.setData i data).tree.span j = d.tree.span j := Tree.span_setData ..
  refine ⟨fun j => ?_, fun j n hn => ?_, h.endTag, h.reported⟩
  · rw [hspan]
    exact h.spans j
  · rw [hspan]
    rw [show (d.setData i data).tree = d.tree.setData i data from rfl, Tree.data_setData] at hn
    split at hn
    · next heq => exact heq.1 ▸ hdata n hn
    · exact h.startTags j n hn

/-- What is no element has no start tag. -/
theorem Aligned.setCurrent {data : NodeData} (h : d.Aligned text pos)
    (hdata : data.startTagEnd? = none) : (d.setCurrent data).Aligned text pos :=
  h.setData fun n hn => by simp [hdata] at hn

/-- An element may change in all but the end of its start tag. -/
theorem Aligned.setElement {i : Nat} {e e' : Element} (h : d.Aligned text pos)
    (hdata : d.tree.data i = .element e) (hsame : e'.startTagEnd = e.startTagEnd) :
    (d.setData i (.element e')).Aligned text pos :=
  h.setData fun n hn => h.startTags i n ((congrArg NodeData.startTagEnd? hdata).trans
    (hsame.symm.trans hn))

/-- The end of a node moves. -/
theorem Aligned.setStop {i stop : Nat} (h : d.Aligned text pos)
    (hstop : isBoundary stop text = true) (hle : (d.tree.span i).start ≤ stop) :
    ({ d with tree := d.tree.setSpan i ⟨(d.tree.span i).start, stop⟩ } : Draft).Aligned text
      pos := by
  have hstart (j : Nat) : ((d.tree.setSpan i ⟨(d.tree.span i).start, stop⟩).span j).start
      = (d.tree.span j).start := by
    rw [Tree.span_setSpan]
    split
    · next heq => rw [heq.1]
    · rfl
  refine ⟨fun j => ⟨?_, ?_⟩, fun j n hn => ?_, h.endTag, h.reported⟩
  · dsimp only
    rw [Tree.span_setSpan]
    split
    · exact (h.spans i).1.stretch hstop hle
    · exact (h.spans j).1
  · rw [hstart]
    exact (h.spans j).2
  · rw [hstart]
    dsimp only at hn
    rw [Tree.data_setSpan] at hn
    exact h.startTags j n hn

theorem Aligned.grow (h : d.Aligned text pos) (i : Nat) {stop : Nat}
    (hstop : isBoundary stop text = true) : (d.grow i stop).Aligned text pos :=
  h.setStop (Span.isBoundary_max (h.spans i).1.stop hstop)
    (Nat.le_trans (h.spans i).1.ordered (Nat.le_max_left _ _))

theorem Aligned.extend (h : d.Aligned text pos) {stop : Nat}
    (hstop : isBoundary stop text = true) : (d.extend stop).Aligned text pos :=
  h.grow d.current hstop

theorem Aligned.moveTo (h : d.Aligned text pos) (i : Nat) :
    ({ d with current := i } : Draft).Aligned text pos :=
  ⟨h.spans, h.startTags, h.endTag, h.reported⟩

theorem Aligned.ascend (h : d.Aligned text pos) : d.ascend.Aligned text pos := by
  unfold Draft.ascend
  split
  · exact h
  · exact (h.moveTo _).grow _ (h.spans d.current).1.stop

theorem Aligned.close (h : d.Aligned text pos) {stop : Nat}
    (hstop : isBoundary stop text = true) : (d.close stop).Aligned text pos :=
  (h.setStop (Span.isBoundary_max hstop (h.spans d.current).1.start)
    (Nat.le_max_right _ _)).ascend

/-- A new node that is no element yet, or one whose start tag has not ended. -/
theorem Aligned.leaf {data : NodeData} {span : Span} (h : d.Aligned text pos)
    (hcurrent : d.current < d.tree.size) (hdata : data.startTagEnd? = none)
    (hspan : span.Cuts text) (hle : span.start ≤ pos) : (d.leaf data span).Aligned text pos := by
  have hsprout : ({ d with tree := d.tree.sprout data span d.current } : Draft).Aligned text
      pos := by
    refine ⟨fun j => ?_, fun j n hn => ?_, h.endTag, h.reported⟩
    · dsimp only
      rw [Tree.span_sprout hcurrent]
      split
      · exact ⟨hspan, hle⟩
      · exact h.spans j
    · dsimp only at hn ⊢
      rw [Tree.data_sprout hcurrent] at hn
      rw [Tree.span_sprout hcurrent]
      split at hn
      · simp [hdata] at hn
      · next hne =>
        rw [if_neg hne]
        exact h.startTags j n hn
  exact hsprout.extend hspan.stop

theorem Aligned.openNode {data : NodeData} {span : Span} (h : d.Aligned text pos)
    (hcurrent : d.current < d.tree.size) (hdata : data.startTagEnd? = none)
    (hspan : span.Cuts text) (hle : span.start ≤ pos) :
    (d.openNode data span).Aligned text pos :=
  (h.leaf hcurrent hdata hspan hle).moveTo d.tree.size

/-! ## Closing what nothing closed -/

theorem Aligned.setEndTagStart (h : d.Aligned text pos) (i start : Nat) :
    (d.setEndTagStart i start).Aligned text pos := by
  unfold Draft.setEndTagStart
  split
  · next e heq => exact h.setElement heq rfl
  · exact h

theorem Aligned.supplyEndTagStart (h : d.Aligned text pos) (stop : Nat) :
    (d.supplyEndTagStart stop).Aligned text pos := by
  unfold Draft.supplyEndTagStart
  split
  · next e heq => exact h.setElement heq rfl
  · exact h

/-- **A node that nothing closed** is reported from its beginning to the end of its start tag, or
to where it is closed. -/
theorem Aligned.closeUnterminated (h : d.Aligned text pos) (hpos : isBoundary pos text = true) :
    (d.closeUnterminated pos).Aligned text pos := by
  have hwhole := h.upTo d.current hpos (Nat.le_refl pos)
  unfold Draft.closeUnterminated
  dsimp only
  refine Aligned.close ?_ hpos
  split
  · next e hdata =>
    have htag : (⟨(d.tree.span d.current).start, e.startTagEnd.getD pos⟩ : Span).Cuts text := by
      cases hend : e.startTagEnd with
      | none => exact hwhole
      | some n =>
        refine h.startTags d.current n ?_
        rw [show d.tree.data d.current = .element e from hdata]
        exact hend
    refine (h.setData fun n hn => ?_).report _ htag
    obtain rfl : e.startTagEnd.getD pos = n := by simpa [NodeData.startTagEnd?] using hn
    exact htag
  · exact h.report _ hwhole
  · split
    · exact h.report _ hwhole
    · exact h

theorem Aligned.closeDownTo (target fuel : Nat) (hpos : isBoundary pos text = true) :
    ∀ {d : Draft}, d.Aligned text pos → (Draft.closeDownTo target pos fuel d).Aligned text pos := by
  induction fuel with
  | zero => exact fun h => h
  | succ fuel ih =>
    intro d h
    unfold Draft.closeDownTo
    split
    · exact h
    · exact ih ((h.setEndTagStart d.current pos).closeUnterminated hpos)

theorem Aligned.finishIn (fuel : Nat) (hpos : isBoundary pos text = true) :
    ∀ {d : Draft}, d.Aligned text pos → (Draft.finishIn fuel pos d).Aligned text pos := by
  induction fuel with
  | zero => exact fun h => h
  | succ fuel ih =>
    intro d h
    unfold Draft.finishIn
    split
    · exact h
    · exact ih ((h.supplyEndTagStart pos).closeUnterminated hpos)

/-! ## One token -/

theorem Aligned.leaveAttribute (h : d.Aligned text pos) : d.leaveAttribute.Aligned text pos := by
  unfold Draft.leaveAttribute
  split
  · exact h.ascend
  · exact h.ascend
  · exact h

theorem Aligned.attributeValue {span : Span} (h : d.Aligned text pos)
    (hstop : isBoundary span.stop text = true) : (d.attributeValue span).Aligned text pos := by
  unfold Draft.attributeValue
  dsimp only
  split
  · exact (h.setCurrent rfl).extend hstop
  · exact (h.setCurrent rfl).extend hstop
  · exact h

theorem Aligned.codeBlockAttribute (h : d.Aligned text pos) (ht : t.span.Cuts text) :
    (d.codeBlockAttribute t).Aligned text pos := by
  unfold Draft.codeBlockAttribute
  split
  · dsimp only
    split
    · exact (h.setCurrent rfl).extend ht.stop
    · split
      · exact ((h.setCurrent rfl).report _ ht).extend ht.stop
      · exact (h.setCurrent rfl).extend ht.stop
  · exact h

theorem Aligned.proseText (h : d.Aligned text pos) (hcurrent : d.current < d.tree.size)
    (ht : t.span.Cuts text) (hle : t.span.start ≤ pos) : (d.proseText t).Aligned text pos := by
  unfold Draft.proseText
  dsimp only
  split
  · exact h.leaf hcurrent rfl ht hle
  -- a paragraph is opened for the text, and then it is the open node
  · have hopen : (d.openNode .paragraph t.span).Aligned text pos :=
      h.openNode hcurrent rfl ht hle
    refine hopen.leaf ?_ rfl ht hle
    exact (openNode_last d .paragraph t.span).symm ▸ Nat.lt_succ_self _

theorem Aligned.codeBlockContent (h : d.Aligned text pos) (ht : t.span.Cuts text) :
    (d.codeBlockContent t).Aligned text pos := by
  unfold Draft.codeBlockContent
  refine Aligned.extend ?_ ht.stop
  split
  · exact h.setCurrent rfl
  · exact h

theorem Aligned.codeBlockEnd (h : d.Aligned text pos) (ht : t.span.Cuts text) :
    (d.codeBlockEnd t).Aligned text pos := by
  unfold Draft.codeBlockEnd
  split
  · refine Aligned.close ?_ ht.stop
    split
    · exact h.setCurrent rfl
    · exact h
  · exact h

theorem Aligned.mustacheContent (h : d.Aligned text pos) (ht : t.span.Cuts text) :
    (d.mustacheContent t).Aligned text pos := by
  unfold Draft.mustacheContent
  refine Aligned.extend ?_ ht.stop
  split
  · exact h.setCurrent rfl
  · exact h

theorem Aligned.mustacheEnd (h : d.Aligned text pos) (ht : t.span.Cuts text) :
    (d.mustacheEnd t).Aligned text pos := by
  unfold Draft.mustacheEnd
  split
  · have hclose := h.close ht.stop
    exact hclose.attributeValue (hclose.spans d.current).1.stop
  · exact h

theorem Aligned.attributeName {data : NodeData} (h : d.Aligned text pos) (hl : d.Laid text pos')
    (ht : t.span.Cuts text) (hle : t.span.start ≤ pos) (hdata : data.startTagEnd? = none) :
    (d.attributeName t data).Aligned text pos := by
  have hopen := h.leaveAttribute.openNode hl.leaveAttribute.shape.edge_lt hdata ht hle
  unfold Draft.attributeName
  dsimp only
  split
  · exact hopen.report _ ht
  · exact hopen

/-- The end of a start tag is a cut, and the element has begun before it. -/
theorem Aligned.endStartTag {e : Element} {stop : Nat} (h : d.Aligned text pos)
    (hstop : isBoundary stop text = true) (hle : pos ≤ stop)
    (hend : e.startTagEnd = some stop) : (d.setCurrent (.element e)).Aligned text pos := by
  refine h.setData fun n hn => ?_
  obtain rfl : stop = n := by simpa [NodeData.startTagEnd?, hend] using hn
  exact h.upTo d.current hstop hle

theorem Aligned.startTagClose (h : d.Aligned text pos) (ht : t.span.Cuts text)
    (hle : pos ≤ t.span.stop) : (d.startTagClose t).Aligned text pos := by
  have hleave := h.leaveAttribute
  unfold Draft.startTagClose
  dsimp only
  split
  · next e hdata =>
    have hset :=
      hleave.endStartTag ht.stop hle (e := { e with startTagEnd := some t.span.stop }) rfl
    split
    · exact hset.close ht.stop
    · exact hset.extend ht.stop
  · exact hleave.extend ht.stop

theorem Aligned.startTagSelfClose (h : d.Aligned text pos) (ht : t.span.Cuts text)
    (hle : pos ≤ t.span.stop) : (d.startTagSelfClose t).Aligned text pos := by
  have hleave := h.leaveAttribute
  unfold Draft.startTagSelfClose
  dsimp only
  split
  · next e hdata => exact (hleave.endStartTag ht.stop hle rfl).close ht.stop
  · exact hleave

/-- **An end tag** closes at the place where it began, or is reported as a whole. -/
theorem Aligned.endTagClose {stop : Nat} (h : d.Aligned text d.endTagStart)
    (hle : d.endTagStart ≤ stop) (hstop : isBoundary stop text = true) :
    (d.endTagClose stop).Aligned text stop := by
  unfold Draft.endTagClose
  split
  · exact h.mono hle
  · next name _ =>
    have hnext : ({ d with endTagName := none } : Draft).Aligned text d.endTagStart :=
      ⟨h.spans, h.startTags, h.endTag, h.reported⟩
    dsimp only
    split
    · exact (hnext.report _ ⟨hle, h.endTag, hstop⟩).mono hle
    · next target _ =>
      have hclosed := hnext.closeDownTo target d.tree.size h.endTag
      exact ((hclosed.setEndTagStart target d.endTagStart).close hstop).mono hle

/-- **A token leaves everything aligned.** -/
theorem Aligned.build (h : d.Aligned text pos) (hl : d.Laid text pos) (ht : t.Reads text pos pos')
    (hkind : t.kind ≠ .endTagClose) : (d.build t).Aligned text pos' := by
  have hcurrent := hl.shape.edge_lt
  have hcuts := ht.cuts
  have hstart : t.span.start ≤ pos' := ht.start ▸ ht.le
  have hstop : pos' ≤ t.span.stop := Nat.le_of_eq ht.stop.symm
  replace h := h.mono ht.le
  unfold Draft.build
  split
  case h_1 | h_2 | h_3 => exact h
  case h_4 => exact h.openNode hcurrent rfl hcuts hstart
  case h_5 =>
    refine Aligned.extend ?_ hcuts.stop
    split
    · exact h.setCurrent rfl
    · exact h
  case h_6 =>
    split
    · exact h.close hcuts.stop
    · exact h
  case h_7 =>
    split
    · unfold Draft.templateText
      split
      · exact h
      · exact h.leaf hcurrent rfl hcuts hstart
    · exact h.proseText hcurrent hcuts hstart
  case h_8 =>
    unfold Draft.paragraphEnd
    split
    · exact h.close hcuts.stop
    · exact h
  case h_9 => exact h.openNode hcurrent rfl hcuts hstart
  case h_10 => exact h.codeBlockAttribute hcuts
  case h_11 => exact h.codeBlockContent hcuts
  case h_12 => exact h.codeBlockEnd hcuts
  case h_13 | h_14 | h_31 => exact h.leaf hcurrent rfl hcuts hstart
  case h_15 =>
    unfold Draft.blockExpression
    refine h.leaf hcurrent ?_ hcuts hstart
    split <;> rfl
  case h_16 =>
    exact h.leaveAttribute.openNode hl.leaveAttribute.shape.edge_lt rfl hcuts hstart
  case h_17 =>
    unfold Draft.startTag
    refine Aligned.extend ?_ hcuts.stop
    split
    · next e hdata => exact h.setElement hdata rfl
    · exact h
  case h_18 => exact h.startTagClose hcuts hstop
  case h_19 => exact h.startTagSelfClose hcuts hstop
  case h_20 =>
    have hleave := h.leaveAttribute
    exact ⟨hleave.spans, hleave.startTags, hcuts.start, hleave.reported⟩
  case h_21 => exact ⟨h.spans, h.startTags, h.endTag, h.reported⟩
  case h_22 hclose => exact absurd hclose hkind
  case h_23 | h_24 => exact h.attributeName hl hcuts hstart rfl
  case h_25 | h_26 => exact h.extend hcuts.stop
  case h_27 => exact h.attributeValue hcuts.stop
  case h_28 => exact h.openNode hcurrent rfl hcuts hstart
  case h_29 => exact h.mustacheContent hcuts
  case h_30 => exact h.mustacheEnd hcuts

/-! ## All tokens -/

/-- The draft is laid out, and aligned, in front of what the scanner reads next. -/
structure Sits (text : Text) (s : Scanner) (d : Draft) : Prop where
  within : s.Within text
  laidAt : d.LaidAt text s.memory s.offset
  aligned : d.Aligned text s.offset

theorem Aligned.takeToken (h : (d.build t).Aligned text pos) (ht : t.span.Cuts text) :
    (d.takeToken t).Aligned text pos := by
  unfold Draft.takeToken
  split
  · exact h.push ht
  · exact h

/-- Within an end tag everything has begun before the tag did. -/
theorem LaidAt.inEndTag {m : Memory} (h : d.LaidAt text m pos) (hin : m.InEndTag)
    (ha : d.Aligned text pos) : d.endTagStart ≤ pos ∧ d.Aligned text d.endTagStart :=
  ⟨(h.endTag hin).1, { ha with
    spans := fun i => ⟨(ha.spans i).1, (h.endTag hin).2.start_le i⟩ }⟩

/-- An end tag is closed where all that is open began before it. -/
theorem Sits.before_endTag {s : Scanner} (h : d.Sits text s)
    (hclose : s.scan.1.kind = .endTagClose) :
    d.endTagStart ≤ s.offset ∧ d.Aligned text d.endTagStart := by
  have hrest : s.rest ≠ [] := fun hnil => by
    rw [(s.scan_kind_eq_eos_iff).2 hnil] at hclose
    simp at hclose
  obtain ⟨m, kind, error, rest, m', hturns, hyields, hscan⟩ := Scanner.scan_before_end hrest
  obtain rfl : kind = .endTagClose := by
    rw [hscan] at hclose
    exact hclose
  have hm : d.LaidAt text m s.offset :=
    hturns.keeps (P := fun m => d.LaidAt text m s.offset) (fun _ _ h hturn => h.turns hturn)
      h.laidAt
  exact hm.inEndTag hyields.of_endTagClose h.aligned

theorem Sits.scan {s : Scanner} (h : d.Sits text s) :
    (d.takeToken s.scan.1).Sits text s.scan.2 := by
  have hreads := h.within.reads
  refine ⟨h.within.scan, h.laidAt.scan h.within, Aligned.takeToken ?_ hreads.cuts⟩
  by_cases hclose : s.scan.1.kind = .endTagClose
  · obtain ⟨hle, haligned⟩ := h.before_endTag hclose
    have hend := haligned.endTagClose (Nat.le_trans hle (hreads.stop ▸ hreads.le)) hreads.cuts.stop
    simp only [Draft.build, hclose]
    rwa [hreads.stop] at hend ⊢
  · exact h.aligned.build h.laidAt.laid hreads hclose

theorem sits_start (dialect : Dialect) (text : Text) :
    (Draft.start dialect text).Sits text (Scanner.start dialect text) := by
  refine ⟨Scanner.start_within dialect text, laidAt_start dialect text, ?_, ?_, isBoundary_zero text,
    ?_⟩
  · intro i
    by_cases hi : i = Tree.root
    · rw [hi]
      exact ⟨⟨Nat.zero_le _, isBoundary_zero text, isBoundary_size text⟩, Nat.le_refl _⟩
    · rw [Tree.span, Tree.node_of_size_le (Nat.one_le_iff_ne_zero.2 hi)]
      exact ⟨Span.cuts_empty (isBoundary_zero text), Nat.le_refl _⟩
  · intro i n hn
    have hdata : (Draft.start dialect text).tree.data i = .root := by
      by_cases hi : i = Tree.root
      · rw [hi]
        rfl
      · rw [Tree.data_of_size_le (Nat.one_le_iff_ne_zero.2 hi)]
    rw [hdata] at hn
    simp [NodeData.startTagEnd?] at hn
  · exact fun x hx => absurd hx List.not_mem_nil

end Draft

/-! ## What a parse reports -/

/-- **A finished draft is aligned.** -/
theorem Parse.draft_aligned (dialect : Dialect) (text : Text) :
    (Parse.draft dialect text).Aligned text (size text) := by
  obtain ⟨s, hsits⟩ := Scanner.tokensIn_foldl (P := fun s d _ => d.Sits text s)
    (f := Draft.takeToken) (g := fun u _ => u) (fun _ _ _ h => h.scan) (tokenLimit text) (b := ())
    (Draft.sits_start dialect text)
  have hlaid := hsits.laidAt.laid
  unfold Parse.draft Draft.finish
  rw [show (List.foldl Draft.takeToken (Draft.start dialect text) (tokenize dialect text)).tree.text
    = text from hlaid.text_eq]
  exact (hsits.aligned.mono hlaid.pos_le).finishIn _ (isBoundary_size text)

/-- What a rule objects to is a node, or a node up to the end of its opening line, and that is a
span. -/
theorem Rule.visit?_cut {rule : Rule} (hrule : rule ∈ Rule.all) {t : Tree} {text : Text}
    (ht : t.Sound text) (id : Nat) :
    ∃ spans, rule.visit? t id = some spans ∧ ∀ span ∈ spans, span.Cuts text := by
  have hnode {data : NodeData} (hdata : t.data id = data) (hkind : data ≠ .root) :
      ∀ span ∈ [t.span id], span.Cuts text :=
    List.forall_mem_singleton.2 (ht.node id (hdata ▸ hkind)).1
  have hnone : ∀ span ∈ ([] : List Span), span.Cuts text := List.forall_mem_nil _
  simp only [Rule.all, List.mem_cons, List.not_mem_nil, or_false] at hrule
  rcases hrule with rfl | rfl | rfl
  · simp only [Rule.inlineExpressionNewline]
    split
    · next hdata =>
      split
      · exact ⟨_, rfl, hnode hdata (by simp)⟩
      · exact ⟨_, rfl, hnone⟩
    · exact ⟨_, rfl, hnone⟩
  · simp only [Rule.directiveIfChain]
    split
    · next hdata =>
      split
      · split
        · exact ⟨_, rfl, hnone⟩
        · exact ⟨_, rfl, hnode hdata (by simp)⟩
      · exact ⟨_, rfl, hnone⟩
    · exact ⟨_, rfl, hnone⟩
  · simp only [Rule.codeBlockLanguage]
    split
    · next block hdata =>
      split
      · obtain ⟨_, _, hopener⟩ := hdata ▸ (ht.node id (by rw [hdata]; simp)).2
        rw [Span.ordered?_eq hopener.ordered]
        exact ⟨_, rfl, List.forall_mem_singleton.2 hopener⟩
      · exact ⟨_, rfl, hnone⟩
    · exact ⟨_, rfl, hnone⟩

/-- **Linting a parsed document does not fail**, whatever the configuration. -/
theorem Parse.lint?_draft (dialect : Dialect) (text : Text) (c : LintConfig) :
    c.lint? (draft dialect text).tree = some (c.lint (draft dialect text).tree) := by
  have hsome : (c.lint? (draft dialect text).tree).isSome := by
    rw [LintConfig.isSome_lint?]
    intro id _ rule hrule _
    obtain ⟨spans, hspans, _⟩ := Rule.visit?_cut hrule (Parse.tree_sound dialect text).1 id
    rw [hspans, Option.isSome_some]
  obtain ⟨found, hfound⟩ := Option.isSome_iff_exists.1 hsome
  rw [hfound, LintConfig.eq_lint hfound]

/-- **Every diagnostic of a parse has a span of the text**, whatever the configuration. -/
theorem Parse.diagnostics_cut (options : ParseOptions) (text : Text) :
    ∀ x ∈ (Parse.ofText options text).diagnostics, x.span.Cuts text := by
  intro x hx
  rcases List.mem_append.1 hx with hx | hx
  · exact (Parse.draft_aligned options.dialect text).reported x (List.mem_reverse.1 hx)
  · obtain ⟨id, _, rule, hrule, _, hx⟩ := LintConfig.mem_lint_iff.1 hx
    obtain ⟨_, _, _, spans, hspans, hspan⟩ := Rule.mem_findings_iff.1 hx
    obtain ⟨spans', hspans', hcuts⟩ :=
      Rule.visit?_cut hrule (Parse.tree_sound options.dialect text).1 id
    obtain rfl := Option.some.inj (hspans.symm.trans hspans')
    exact hcuts _ hspan

end HybridMarkup
