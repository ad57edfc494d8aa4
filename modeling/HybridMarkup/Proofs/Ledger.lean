/-
The ledger of what is not closed.

Of the nodes that have to be closed each one that is left by the draft has its end in the text
(`Tree.HasEnd`), or it is cut off by something else (`Tree.CutOff`), and then it is reported. The
ledger (`Draft.Ledger`) is the list of those that are cut off, in the order in which they are left:
what is reported for not being closed is one entry for each of them, and no other.

That no two of these entries are merged is a matter of where they begin and end. What has to be
closed begins at different places, each newer node behind the older ones, and an entry ends behind
the place where its node begins. Of the open nodes all are older than the one that is left, so none
of them begins where the new entry ends; and what is opened later begins behind the end tag that has
cut the node off. While tokens are read only elements are cut off, by the end tags of other
elements, and all that is known on the way (`Draft.Midway`) is there to carry the ledger to the end
of the text, where the other nodes are cut off.
-/
import HybridMarkup.Proofs.Landmarks

set_option autoImplicit false

namespace HybridMarkup

open Text

/-! ## How a node ends -/

theorem TokenKind.ended?_ne_element (k : TokenKind) : k.ended? ≠ some .element := by
  cases k <;> simp [TokenKind.ended?]

theorem TokenKind.isStructural_of_ended? {t : TokenKind} {k : NodeKind} (h : t.ended? = some k) :
    k.isStructural = true := by
  cases t <;> simp only [TokenKind.ended?, Option.some.injEq, reduceCtorEq] at h <;> subst h <;> rfl

/-- The element is closed by an end tag of its name, which begins where it is noted and ends at
`stop`. -/
def Element.ClosedByTag (ts : List Token) (e : Element) (stop : Nat) : Prop :=
  ∃ tag c q name, tag ++ [c] <:+: ts ∧ IsEndTag tag q name ∧ c.kind = .endTagClose ∧
    c.span.stop = stop ∧ q < stop ∧ e.endTagStart = some q ∧ equalIgnoringCase e.tag name = true

theorem Element.ClosedByTag.mono {ts more : List Token} {e : Element} {stop : Nat}
    (h : e.ClosedByTag ts stop) (hmore : ts <:+: more) : e.ClosedByTag more stop := by
  obtain ⟨tag, c, q, name, htokens, hrest⟩ := h
  exact ⟨tag, c, q, name, htokens.trans hmore, hrest⟩

namespace Tree

variable {t t' : Tree} {text : Text} {ts ts' : List Token} {i : Nat} {c : Token}

/-- A token that ends what is of its kind ends the node. -/
def EndsAtToken (t : Tree) (ts : List Token) (i : Nat) : Prop :=
  ∃ c ∈ ts, c.kind.ended? = some (t.kind i) ∧ c.span.stop = (t.span i).stop

/-- The node has its end in the text: it is an element that ends with its start tag or is closed by
an end tag, or a token ends it. -/
def HasEnd (t : Tree) (ts : List Token) (i : Nat) : Prop :=
  (∃ e, (t.data i).element? = some e ∧
    (e.endTagStart = none ∨ e.ClosedByTag ts (t.span i).stop)) ∨ t.EndsAtToken ts i

/-- The node has no end of its own. The end tag of an element would begin where the element ends,
and what is no element goes on to the end of the text. -/
structure CutOff (t : Tree) (text : Text) (ts : List Token) (i : Nat) : Prop where
  element : ∀ e, (t.data i).element? = some e → e.endTagStart = some (t.span i).stop
  other : t.kind i ≠ .element → (t.span i).stop = Text.size text ∧ ¬ t.EndsAtToken ts i

theorem HasEnd.mono (h : t.HasEnd ts i) (hmore : ts <:+: ts') : t.HasEnd ts' i := by
  rcases h with ⟨e, he, hend⟩ | ⟨c, hc, hend⟩
  · exact .inl ⟨e, he, hend.imp_right fun htag => htag.mono hmore⟩
  · exact .inr ⟨c, hmore.subset hc, hend⟩

theorem HasEnd.congr (h : t.HasEnd ts i) (hnode : t'.node i = t.node i) : t'.HasEnd ts i := by
  unfold HasEnd EndsAtToken kind data span at h ⊢
  rwa [hnode]

theorem CutOff.congr (h : t.CutOff text ts i) (hnode : t'.node i = t.node i) :
    t'.CutOff text ts i := by
  obtain ⟨helement, hother⟩ := h
  unfold EndsAtToken kind data span at *
  constructor
  · unfold data span
    rwa [hnode]
  · unfold EndsAtToken kind data span
    rwa [hnode]

/-- **A node that is cut off has no end.** -/
theorem CutOff.not_hasEnd (h : t.CutOff text ts i) : ¬ t.HasEnd ts i := by
  rintro (⟨e, he, hend⟩ | hend)
  · have hstart := h.element e he
    rcases hend with hnone | ⟨_, _, q, _, _, _, _, _, hlt, hq, _⟩
    · simp [hstart] at hnone
    · rw [hstart] at hq
      exact absurd (Option.some.inj hq) (Nat.ne_of_gt hlt)
  · refine (h.other fun helement => ?_).2 hend
    obtain ⟨c, _, hkind, _⟩ := hend
    exact c.kind.ended?_ne_element (helement ▸ hkind)

end Tree

namespace Draft

variable {text : Text} {d d' d₁ : Draft} {t : Token} {e : Element} {ts : List Token}
  {new : Nat → NodeKind → Nat → Prop} {data : NodeData} {pos pos' i j stop : Nat}
  {left more : List Nat}

/-- **The ledger**: the nodes that were cut off, and what is reported of them. -/
structure Ledger (text : Text) (d : Draft) (ts : List Token) (left : List Nat) : Prop where
  entries : d.diagnostics.unclosed = left.map d.tree.complaint
  nodup : left.Nodup
  closed : ∀ i ∈ left, d.Closed i ∧ (d.tree.kind i).isStructural = true
  cutOff : ∀ i ∈ left, d.tree.CutOff text ts i
  ended : ∀ i, d.Closed i → (d.tree.kind i).isStructural = true → i ∈ left ∨ d.tree.HasEnd ts i
  rising : ∀ i j, (d.tree.kind i).isStructural = true → (d.tree.kind j).isStructural = true →
    i < j → (d.tree.span i).start < (d.tree.span j).start
  /-- What is open does not begin where an entry ends. -/
  apart : ∀ i ∈ left, ∀ j, d.tree.Under d.current j → (d.tree.kind j).isStructural = true →
    (d.tree.complaint i).span.stop ≠ (d.tree.span j).start

/-- What is known at the place `pos` while tokens are read. -/
structure Midway (d : Draft) (ts : List Token) (pos : Nat) (left : List Nat) : Prop where
  elements : ∀ i ∈ left, d.tree.kind i = .element
  started : ∀ i, (d.tree.kind i).isStructural = true → (d.tree.span i).start < pos
  behind : ∀ i ∈ left, (d.tree.complaint i).span.stop < pos
  /-- The tokens that could have ended what is open stand in front of it. -/
  unread : ∀ j, d.tree.Under d.current j → ∀ c ∈ ts, c.kind.ended? = some (d.tree.kind j) →
    c.span.stop ≤ (d.tree.span j).start

/-! ## Reading on -/

theorem Ledger.read (h : d.Ledger text ts left) (helements : ∀ i ∈ left, d.tree.kind i = .element) :
    d.Ledger text (ts ++ [t]) left := by
  refine ⟨h.entries, h.nodup, h.closed, fun i hi => ⟨(h.cutOff i hi).element, fun hother => ?_⟩,
    fun i hi hkind => (h.ended i hi hkind).imp_right fun hend => ?_, h.rising, h.apart⟩
  · exact absurd (helements i hi) hother
  · exact hend.mono (List.prefix_append ts _).isInfix

/-- The token ends nothing that is open. -/
theorem Midway.read (h : d.Midway ts pos left)
    (hother : ∀ j, d.tree.Under d.current j → t.kind.ended? ≠ some (d.tree.kind j)) :
    d.Midway (ts ++ [t]) pos left := by
  refine ⟨h.elements, h.started, h.behind, fun j hj c hc hkind => ?_⟩
  rcases List.mem_append.1 hc with hc | hc
  · exact h.unread j hj c hc hkind
  · rw [List.mem_singleton.1 hc] at hkind
    exact absurd hkind (hother j hj)

theorem Midway.mono (h : d.Midway ts pos left) (hle : pos ≤ pos') : d.Midway ts pos' left :=
  ⟨h.elements, fun i hi => Nat.lt_of_lt_of_le (h.started i hi) hle,
    fun i hi => Nat.lt_of_lt_of_le (h.behind i hi) hle, h.unread⟩

/-! ## What leaves the ledger as it is -/

/-- Where closed nodes stay as they are, the same is reported of them. -/
theorem Ledger.complaint_eq (h : d.Ledger text ts left) (hs : d.Spares d') (hi : i ∈ left) :
    d'.tree.complaint i = d.tree.complaint i := by
  rw [Tree.complaint, (hs i (h.closed i hi).1).2]
  rfl

theorem Ledger.kind_eq (h : d.Ledger text ts left) (hs : d.Spares d') (hi : i ∈ left) :
    d'.tree.kind i = d.tree.kind i := by
  rw [Tree.kind, Tree.data, (hs i (h.closed i hi).1).2]
  rfl

/-- **What only adds to the draft.** What is new begins behind everything else. -/
theorem Ledger.holds (h : d.Ledger text ts left) (hm : d.Midway ts pos left)
    (hshape : d.tree.Shape d.current) (hh : d.Holds (d.Arrives ts pos pos') d') :
    d'.Ledger text ts left := by
  have hold {i : Nat} (hi : i < d.tree.size) :
      d'.tree.kind i = d.tree.kind i ∧ (d'.tree.span i).start = (d.tree.span i).start :=
    ⟨hh.grows.kinds i hi, hh.grows.starts i hi⟩
  have hfresh {i : Nat} (hi : ¬ i < d.tree.size) (hkind : (d'.tree.kind i).isStructural = true) :
      (d'.tree.span i).start = pos := by
    obtain ⟨p, _, hnew⟩ :=
      hh.grows.fresh i (Nat.le_of_not_lt hi) (Tree.lt_size_of_structural hkind)
    exact hnew.start
  refine ⟨?_, h.nodup, fun i hi => ⟨(hh.spares i (h.closed i hi).1).1, ?_⟩, fun i hi => ?_,
    fun i hi hkind => ?_, fun i j hi hj hlt => ?_, fun i hi j hj hkind => ?_⟩
  · rw [hh.unclosed, h.entries]
    exact List.map_congr_left fun i hi => (h.complaint_eq hh.spares hi).symm
  · rw [h.kind_eq hh.spares hi]
    exact (h.closed i hi).2
  · exact (h.cutOff i hi).congr (hh.spares i (h.closed i hi).1).2
  · have hclosed := hh.closed_of_closed hkind hi
    have hnode := (hh.spares i hclosed).2
    rw [(hold hclosed.lt).1] at hkind
    exact (h.ended i hclosed hkind).imp_right fun hend => hend.congr hnode
  · by_cases hj' : j < d.tree.size
    · have hi' := Nat.lt_trans hlt hj'
      rw [(hold hi').1] at hi
      rw [(hold hj').1] at hj
      rw [(hold hi').2, (hold hj').2]
      exact h.rising i j hi hj hlt
    · rw [hfresh hj' hj]
      by_cases hi' : i < d.tree.size
      · rw [(hold hi').1] at hi
        rw [(hold hi').2]
        exact hm.started i hi
      · have heq := hh.new_unique hshape (fun _ _ _ hnew hk => (hnew.structural hk).2.1)
          (Nat.le_of_not_lt hi') (Nat.le_of_not_lt hj') hi hj
        exact absurd heq (Nat.ne_of_lt hlt)
  · rw [h.complaint_eq hh.spares hi]
    by_cases hj' : j < d.tree.size
    · rw [(hold hj').1] at hkind
      rw [(hold hj').2]
      exact h.apart i hi j (hh.spares.under_of_under hj' hj) hkind
    · rw [hfresh hj' hkind]
      exact Nat.ne_of_lt (hm.behind i hi)

theorem Midway.holds (h : d.Midway ts pos left) (hl : d.Ledger text ts left)
    (hh : d.Holds (d.Arrives ts pos pos') d') (hle : pos ≤ pos') : d'.Midway ts pos' left := by
  refine ⟨fun i hi => ?_, fun i hi => ?_, fun i hi => ?_, fun j hj c hc hkind => ?_⟩
  · rw [hl.kind_eq hh.spares hi]
    exact h.elements i hi
  · by_cases hi' : i < d.tree.size
    · rw [hh.grows.kinds i hi'] at hi
      rw [hh.grows.starts i hi']
      exact Nat.lt_of_lt_of_le (h.started i hi) hle
    · obtain ⟨p, _, hnew⟩ :=
        hh.grows.fresh i (Nat.le_of_not_lt hi') (Tree.lt_size_of_structural hi)
      rw [hnew.start]
      exact (hnew.structural hi).1
  · rw [hl.complaint_eq hh.spares hi]
    exact Nat.lt_of_lt_of_le (h.behind i hi) hle
  · by_cases hj' : j < d.tree.size
    · rw [hh.grows.kinds j hj'] at hkind
      rw [hh.grows.starts j hj']
      exact h.unread j (hh.spares.under_of_under hj' hj) c hc hkind
    · have hstructural := TokenKind.isStructural_of_ended? hkind
      obtain ⟨p, _, hnew⟩ :=
        hh.grows.fresh j (Nat.le_of_not_lt hj') (Tree.lt_size_of_structural hstructural)
      rw [hnew.start]
      exact (hnew.structural hstructural).2.2 c hc

/-! ## Leaving a node -/

/-- **A node is left.** It has an end, or it is entered in the ledger. -/
theorem Ledger.shuts (h : d.Ledger text ts left) (hshape : d.tree.Shape d.current)
    (hs : d.Shuts data stop d') (hkind : data.kind = d.currentKind)
    (hentries : d'.diagnostics.unclosed = d.diagnostics.unclosed ++ more.map d'.tree.complaint)
    (hnodup : more.Nodup)
    (hmore : ∀ i ∈ more, i = d.current ∧ d.currentKind.isStructural = true ∧
      d'.tree.CutOff text ts i ∧ (d.tree.span i).start ≤ (d'.tree.complaint i).span.stop)
    (hend : d.currentKind.isStructural = true → d.current ∈ more ∨ d'.tree.HasEnd ts d.current) :
    d'.Ledger text ts (left ++ more) := by
  have hspares := hs.spares hshape
  have hleft (i : Nat) (hi : i ∈ left) : i ≠ d.current := fun heq =>
    (h.closed i hi).1.off (heq ▸ .refl _ _)
  have hcurrent : d'.tree.kind d.current = d.currentKind := hs.kind_eq hkind d.current
  refine ⟨?_, ?_, fun i hi => ?_, fun i hi => ?_, fun i hi hk => ?_, fun i j hi hj hlt => ?_,
    fun i hi j hj hk => ?_⟩
  · rw [hentries, h.entries, List.map_append]
    exact congrArg (· ++ _) (List.map_congr_left fun i hi => (h.complaint_eq hspares hi).symm)
  · refine List.nodup_append.2 ⟨h.nodup, hnodup, fun i hi j hj heq => ?_⟩
    exact hleft i hi (heq.trans (hmore j hj).1)
  · rcases List.mem_append.1 hi with hi | hi
    · rw [h.kind_eq hspares hi]
      exact ⟨(hspares i (h.closed i hi).1).1, (h.closed i hi).2⟩
    · obtain ⟨rfl, hk, _⟩ := hmore i hi
      exact ⟨(hs.closed_iff hshape).2 (.inl rfl), hcurrent ▸ hk⟩
  · rcases List.mem_append.1 hi with hi | hi
    · exact (h.cutOff i hi).congr (hspares i (h.closed i hi).1).2
    · exact (hmore i hi).2.2.1
  · rcases (hs.closed_iff hshape).1 hi with rfl | hclosed
    · exact (hend (hcurrent ▸ hk)).imp_left (List.mem_append_right _)
    · rw [hs.kind_eq hkind] at hk
      refine (h.ended i hclosed hk).imp (List.mem_append_left _) fun hend => ?_
      exact hend.congr (hspares i hclosed).2
  · rw [hs.kind_eq hkind] at hi hj
    rw [hs.start_eq, hs.start_eq]
    exact h.rising i j hi hj hlt
  · obtain ⟨hne, hunder⟩ := (hs.under_iff hshape).1 hj
    rw [hs.kind_eq hkind] at hk
    rw [hs.start_eq]
    rcases List.mem_append.1 hi with hi | hi
    · rw [h.complaint_eq hspares hi]
      exact h.apart i hi j hunder hk
    -- what is still open is older than the node that is left
    · obtain ⟨rfl, hk', _, hle⟩ := hmore i hi
      have hlt : j < d.current := Nat.lt_of_le_of_ne (hunder.le hshape) hne
      exact Nat.ne_of_gt (Nat.lt_of_lt_of_le (h.rising j d.current hk hk' hlt) hle)

/-- A node is left that has an end. -/
theorem Ledger.leaves (h : d.Ledger text ts left) (hshape : d.tree.Shape d.current)
    (hl : d.Leaves data stop d') (hkind : data.kind = d.currentKind)
    (hend : d'.tree.HasEnd ts d.current) : d'.Ledger text ts left := by
  have hentries : d'.diagnostics.unclosed = d.diagnostics.unclosed ++ [].map d'.tree.complaint := by
    rw [hl.quiet]
    simp
  have hledger := h.shuts hshape hl.toShuts hkind hentries .nil
    (fun i hi => absurd hi List.not_mem_nil) fun _ => .inr hend
  rwa [List.append_nil] at hledger

theorem Midway.shuts (h : d.Midway ts pos left) (hclosed : ∀ i ∈ left, d.Closed i)
    (hshape : d.tree.Shape d.current) (hs : d.Shuts data stop d')
    (hkind : data.kind = d.currentKind)
    (hmore : ∀ i ∈ more, d'.tree.kind i = .element ∧ (d'.tree.complaint i).span.stop < pos) :
    d'.Midway ts pos (left ++ more) := by
  have hnode (i : Nat) (hi : i ∈ left) := (hs.spares hshape i (hclosed i hi)).2
  refine ⟨fun i hi => ?_, fun i hi => ?_, fun i hi => ?_, fun j hj c hc hk => ?_⟩
  · rcases List.mem_append.1 hi with hi | hi
    · rw [hs.kind_eq hkind]
      exact h.elements i hi
    · exact (hmore i hi).1
  · rw [hs.kind_eq hkind] at hi
    rw [hs.start_eq]
    exact h.started i hi
  · rcases List.mem_append.1 hi with hi | hi
    · rw [Tree.complaint, hnode i hi]
      exact h.behind i hi
    · exact (hmore i hi).2
  · rw [hs.kind_eq hkind] at hk
    rw [hs.start_eq]
    exact h.unread j ((hs.under_iff hshape).1 hj).2 c hc hk

/-! ## Cutting a node off -/

/-- Where the start tags of open elements end. -/
def TagsWithin (d : Draft) (stop : Nat) : Prop :=
  ∀ i e st, d.tree.Under d.current i → (d.tree.data i).element? = some e →
    e.startTagEnd = some st → (d.tree.span i).start ≤ st ∧ st ≤ stop

theorem Landmarked.tagsWithin (h : d.Landmarked ts pos) (hle : pos ≤ stop) :
    d.TagsWithin stop := by
  intro i e st hi he hst
  obtain ⟨_, hpos, hhead⟩ := h.begun i e st hi he hst
  exact ⟨Nat.le_of_lt hhead.begins, Nat.le_trans hpos hle⟩

theorem TagsWithin.abandons (h : d.TagsWithin stop) (step : d.Abandons text stop d') :
    d'.TagsWithin stop := by
  intro i e st hi he hst
  obtain ⟨hne, hunder⟩ := (step.under_iff step.before.shape).1 hi
  rw [step.data_eq, if_neg hne] at he
  rw [step.start_eq]
  exact h i e st hunder he hst

/-- Where the entry of a node ends that nothing closes. -/
theorem Abandons.complaint_stop (step : d.Abandons text stop d') (h : d.TagsWithin stop) :
    (d.tree.span d.current).start ≤ (d'.tree.complaint d.current).span.stop ∧
      (d'.tree.complaint d.current).span.stop ≤ stop := by
  have hstart := step.before.start_le d.current
  rw [step.complaint_eq hstart]
  have hdata : (d.tree.node d.current).data = d.currentData := rfl
  unfold Node.complaintAt
  rw [hdata]
  split
  · next e helement =>
    cases hst : e.startTagEnd with
    | none => exact ⟨hstart, Nat.le_refl _⟩
    | some st => exact h d.current e st (.refl _ _) (NodeData.element?_eq_some.2 helement) hst
  · exact ⟨hstart, Nat.le_refl _⟩
  · exact ⟨hstart, Nat.le_refl _⟩

/-- Nothing closes the node, so it is cut off. What is no element is closed by nothing only where
the text ends. -/
theorem Abandons.cutOff (step : d.Abandons text stop d')
    (hother : d.currentKind ≠ .element → stop = size text ∧
      ∀ c ∈ ts, c.kind.ended? = some d.currentKind → c.span.stop ≠ stop) :
    d'.tree.CutOff text ts d.current := by
  have hstart := step.before.start_le d.current
  have hstop : (d'.tree.span d.current).stop = stop := step.stop_eq hstart
  have hkind : d'.tree.kind d.current = d.currentKind :=
    step.kind_eq NodeData.kind_endedAt d.current
  refine ⟨fun e he => ?_, fun hne => ?_⟩
  · rw [step.data_eq, if_pos rfl] at he
    rw [hstop]
    cases hdata : d.currentData with
    | element e' =>
      rw [hdata, NodeData.endedAt_element] at he
      exact Option.some.inj he ▸ rfl
    | _ =>
      rw [hdata, NodeData.endedAt_other rfl] at he
      simp [NodeData.element?] at he
  · rw [hkind] at hne
    obtain ⟨hend, hunread⟩ := hother hne
    refine ⟨hstop.trans hend, ?_⟩
    rintro ⟨c, hc, hended, hat⟩
    rw [hkind] at hended
    exact hunread c hc hended (hat.trans hstop)

/-- No entry ends where the node begins that is left. -/
theorem Ledger.apart_of_abandons (h : d.Ledger text ts left) (step : d.Abandons text stop d')
    (hk : d.currentKind.isStructural = true) :
    ∀ y ∈ d.diagnostics.unclosed, y.span.stop ≠ (d'.tree.complaint d.current).span.start := by
  intro y hy
  rw [h.entries] at hy
  obtain ⟨i, hi, rfl⟩ := List.mem_map.1 hy
  have hstart : (d'.tree.complaint d.current).span.start = (d.tree.span d.current).start :=
    Node.start_complaint.trans (step.start_eq d.current)
  rw [hstart]
  exact h.apart i hi d.current (.refl _ _) hk

/-- The node is entered in the ledger, if it has to be closed. -/
def entered (d : Draft) : List Nat := if d.currentKind.isStructural = true then [d.current] else []

/-- **A node that nothing closes is entered in the ledger.** -/
theorem Ledger.abandons (h : d.Ledger text ts left) (step : d.Abandons text stop d')
    (htags : d.TagsWithin stop)
    (hother : d.currentKind ≠ .element → stop = size text ∧
      ∀ c ∈ ts, c.kind.ended? = some d.currentKind → c.span.stop ≠ stop) :
    d'.Ledger text ts (left ++ d.entered) := by
  have hshape := step.before.shape
  unfold entered
  by_cases hk : d.currentKind.isStructural = true
  · rw [if_pos hk]
    refine h.shuts hshape step.toShuts NodeData.kind_endedAt ?_ (by simp)
      (fun i hi => ?_) fun _ => .inl (List.mem_singleton_self _)
    · rw [step.diagnostics, if_pos hk]
      exact Diagnostics.filter_push Diagnostic.byName_isUnclosed Node.isUnclosed_complaint
        (h.apart_of_abandons step hk)
    · rw [List.mem_singleton.1 hi]
      exact ⟨rfl, hk, step.cutOff hother, (step.complaint_stop htags).1⟩
  · rw [if_neg hk]
    refine h.shuts hshape step.toShuts NodeData.kind_endedAt ?_ .nil
      (fun i hi => absurd hi List.not_mem_nil) fun hk' => absurd hk' hk
    rw [step.diagnostics, if_neg hk]
    simp

/-! ## All tokens -/

/-- There is a ledger at the place `pos`, behind the tokens `ts`. -/
def Booked (text : Text) (d : Draft) (ts : List Token) (pos : Nat) : Prop :=
  ∃ left, d.Ledger text ts left ∧ d.Midway ts pos left

theorem Booked.mono (h : d.Booked text ts pos) (hle : pos ≤ pos') : d.Booked text ts pos' := by
  obtain ⟨left, hl, hm⟩ := h
  exact ⟨left, hl, hm.mono hle⟩

theorem Booked.read (h : d.Booked text ts pos) (hother : t.kind.ended? = none) :
    d.Booked text (ts ++ [t]) pos := by
  obtain ⟨left, hl, hm⟩ := h
  exact ⟨left, hl.read hm.elements, hm.read fun j _ => by simp [hother]⟩

theorem Booked.holds (h : d.Booked text ts pos) (hshape : d.tree.Shape d.current)
    (hh : d.Holds (d.Arrives ts pos pos') d') (hle : pos ≤ pos') : d'.Booked text ts pos' := by
  obtain ⟨left, hl, hm⟩ := h
  exact ⟨left, hl.holds hm hshape hh, hm.holds hl hh hle⟩

theorem Booked.keeps (h : d.Booked text ts pos) (hshape : d.tree.Shape d.current)
    (hh : d.Holds Tree.NoNode d') : d'.Booked text ts pos := by
  have harrives : d.Holds (d.Arrives ts pos pos) d' := hh.mono fun _ _ _ hnone => hnone.elim
  exact h.holds hshape harrives (Nat.le_refl _)

theorem Midway.leaves (h : d.Midway ts pos left) (hl : d.Ledger text ts left)
    (hshape : d.tree.Shape d.current) (hs : d.Leaves data stop d')
    (hkind : data.kind = d.currentKind) : d'.Midway ts pos left := by
  have hnone (i : Nat) (hi : i ∈ ([] : List Nat)) :
      d'.tree.kind i = .element ∧ (d'.tree.complaint i).span.stop < pos :=
    absurd hi List.not_mem_nil
  have hmidway := h.shuts (fun i hi => (hl.closed i hi).1) hshape hs.toShuts hkind hnone
  rwa [List.append_nil] at hmidway

theorem Booked.leaves (h : d.Booked text ts pos) (hshape : d.tree.Shape d.current)
    (hs : d.Leaves data stop d') (hkind : data.kind = d.currentKind)
    (hend : d'.tree.HasEnd ts d.current) : d'.Booked text ts pos := by
  obtain ⟨left, hl, hm⟩ := h
  exact ⟨left, hl.leaves hshape hs hkind hend, hm.leaves hl hshape hs hkind⟩

/-- An element is cut off by an end tag. -/
theorem Booked.abandons (h : d.Booked text ts pos) (step : d.Abandons text stop d')
    (htags : d.TagsWithin stop) (hlt : stop < pos) (helement : d.currentKind = .element) :
    d'.Booked text ts pos := by
  obtain ⟨left, hl, hm⟩ := h
  refine ⟨_, hl.abandons step htags fun hother => absurd helement hother,
    hm.shuts (fun i hi => (hl.closed i hi).1) step.before.shape step.toShuts
      NodeData.kind_endedAt fun i hi => ?_⟩
  have hentered : d.entered = [d.current] := by
    rw [entered, helement]
    rfl
  obtain rfl := List.mem_singleton.1 (hentered ▸ hi)
  refine ⟨?_, Nat.lt_of_le_of_lt (step.complaint_stop htags).2 hlt⟩
  rw [step.kind_eq NodeData.kind_endedAt]
  exact helement

/-- **A run of elements is cut off**, by an end tag that begins at `stop`. -/
theorem Booked.abandoned {below : List Nat} (h : d.Booked text ts pos)
    (habandoned : Abandoned text stop below d d') (hlaid : d.Laid text stop)
    (htags : d.TagsWithin stop) (hlt : stop < pos)
    (hnested : ∀ i, d.tree.Under d.current i → d.tree.kind i = .element ∨ i = Tree.root) :
    d'.Booked text ts pos ∧ d'.Laid text stop := by
  obtain ⟨hbooked, _, _, hlaid'⟩ := habandoned.keeps
    (P := fun d => d.Booked text ts pos ∧ d.TagsWithin stop ∧
      (∀ i, d.tree.Under d.current i → d.tree.kind i = .element ∨ i = Tree.root) ∧
        d.Laid text stop)
    ⟨h, htags, hnested, hlaid⟩ fun d d' step hall => by
      obtain ⟨hbooked, htags, hnested, _⟩ := hall
      have helement := (hnested d.current (.refl _ _)).resolve_right
        (step.before.ne_root_of_parent step.parent)
      refine ⟨hbooked.abandons step htags hlt helement, htags.abandons step, fun i hi => ?_,
        step.after⟩
      rw [step.kind_eq NodeData.kind_endedAt]
      exact hnested i ((step.under_iff step.before.shape).1 hi).2
  exact ⟨hbooked, hlaid'⟩

/-- **What a token can do keeps the ledger.** -/
theorem Effect.booked (heffect : Effect text ts pos pos' t d d') (h : d.Booked text ts pos)
    (hmarks : d.Landmarked ts pos) (hlaid : d.Laid text pos) (hle : pos ≤ pos') :
    d'.Booked text (ts ++ [t]) pos' := by
  have hshape := hlaid.shape
  cases heffect with
  | adds kind hr =>
    have hother : t.kind.ended? = none := by
      cases hk : t.kind <;> simp_all [TokenKind.retains, TokenKind.ended?]
    exact (h.holds hshape hr.toHolds hle).read hother
  | @ends data d₁ kind same alone hstop hs after =>
    obtain ⟨left, hl, hm⟩ := h
    have hstart : (d.tree.span d.current).start ≤ pos' :=
      Nat.le_trans (Nat.le_of_lt (hm.started d.current (TokenKind.isStructural_of_ended? kind))) hle
    have hend : d₁.tree.HasEnd (ts ++ [t]) d.current := by
      refine .inr ⟨t, by simp, ?_, hstop.trans (hs.stop_eq hstart).symm⟩
      rw [hs.kind_eq same]
      exact kind
    -- nothing else is open that the token could end
    have hread : d₁.Midway (ts ++ [t]) pos left := by
      refine (hm.leaves hl hshape hs same).read fun j hj hk => ?_
      obtain ⟨hne, hunder⟩ := (hs.under_iff hshape).1 hj
      rw [hs.kind_eq same, kind, Option.some.injEq] at hk
      exact hne (alone j hunder hk.symm)
    have hbooked : d₁.Booked text (ts ++ [t]) pos :=
      ⟨left, (hl.read hm.elements).leaves hshape hs same hend, hread⟩
    exact (hbooked.keeps (hs.shape hshape) after.toHolds).mono hle
  | names kind hdata hm =>
    exact ((h.keeps hshape hm.toHolds).read (by rw [kind]; rfl)).mono hle
  | begins kind hstop before hb void hm =>
    exact (((h.keeps hshape before.toHolds).keeps hb.laid.shape hm.toHolds).read
      (by rw [kind]; rfl)).mono hle
  | @completes d₁ d₂ e e' hstop before hb how hs after =>
    have hother : t.kind.ended? = none := by
      rcases how with ⟨hk, _⟩ | ⟨hk, _⟩ <;> rw [hk] <;> rfl
    have hkind : (NodeData.element e').kind = d₁.currentKind := (Tree.kind_of_data hb.data).symm
    have hend : d₂.tree.HasEnd (ts ++ [t]) d₁.current := by
      refine .inl ⟨e', by rw [hs.data_eq, if_pos rfl]; rfl, .inl ?_⟩
      rcases how with ⟨_, _, rfl⟩ | ⟨_, rfl⟩ <;> exact hb.unended
    have hbooked := ((h.read hother).keeps hshape before.toHolds).leaves hb.laid.shape hs hkind hend
    exact (hbooked.keeps (hs.shape hb.laid.shape) after.toHolds).mono hle
  | @closes d₁ d₂ d₃ below e tag name kind tokens is hlt hstop begun nested before laid abandoned
      hdata same hs after =>
    have hread : d.Booked text (ts ++ [t]) pos := h.read (by rw [kind]; rfl)
    have hnested₁ (i : Nat) (hi : d₁.tree.Under d₁.current i) :
        d₁.tree.kind i = .element ∨ i = Tree.root := by
      have hi' : i < d.tree.size :=
        before.grows.size_eq ▸ Nat.lt_of_le_of_lt (hi.le laid.shape) laid.shape.edge_lt
      rw [before.grows.kinds i hi']
      exact nested i (before.spares.under_of_under hi' hi)
    have htags₁ : d₁.TagsWithin pos :=
      (hmarks.keeps hshape before).tagsWithin (Nat.le_refl _)
    -- the entries end where the tag begins at the latest
    obtain ⟨hbooked, hlaid₂⟩ := ((hread.keeps hshape before.toHolds).mono (Nat.le_succ _)).abandoned
      abandoned laid htags₁ (Nat.lt_succ_self _) hnested₁
    have hkind : (NodeData.element { e with endTagStart := some pos }).kind = d₂.currentKind :=
      (Tree.kind_of_data hdata).symm
    have hend : d₃.tree.HasEnd (ts ++ [t]) d₂.current := by
      refine .inl ⟨_, by rw [hs.data_eq, if_pos rfl]; rfl, .inr ?_⟩
      rw [hs.stop_eq (Nat.le_trans (hlaid₂.start_le d₂.current) hle)]
      refine ⟨tag, t, pos, name, ?_, is, kind, hstop, hlt, rfl, same⟩
      obtain ⟨front, rfl⟩ := tokens
      exact ⟨front, [], by simp⟩
    exact ((hbooked.leaves hlaid₂.shape hs hkind hend).keeps (hs.shape hlaid₂.shape)
      after.toHolds).mono hlt

theorem booked_start (dialect : Dialect) (text : Text) :
    (Draft.start dialect text).Booked text [] 0 := by
  have hkind (i : Nat) : (Draft.start dialect text).tree.kind i = .root := by cases i <;> rfl
  have hnone {i : Nat} {P : Prop}
      (h : ((Draft.start dialect text).tree.kind i).isStructural = true) : P := by
    rw [hkind] at h
    simp [NodeKind.isStructural] at h
  refine ⟨[], ⟨rfl, .nil, fun i hi => absurd hi List.not_mem_nil,
    fun i hi => absurd hi List.not_mem_nil, fun i _ hi => hnone hi, fun i _ hi => hnone hi,
    fun i hi => absurd hi List.not_mem_nil⟩, fun i hi => absurd hi List.not_mem_nil,
    fun i hi => hnone hi, fun i hi => absurd hi List.not_mem_nil,
    fun j _ c hc => absurd hc List.not_mem_nil⟩

/-- All that is known of a draft at the place `pos`, behind the tokens `ts`. -/
structure Recorded (text : Text) (d : Draft) (ts : List Token) (pos : Nat) : Prop where
  landmarked : d.Landmarked ts pos
  behindTags : d.BehindTags
  booked : d.Booked text ts pos

theorem recorded_start (dialect : Dialect) (text : Text) :
    (Draft.start dialect text).Recorded text [] 0 :=
  ⟨(landmarked_start dialect text).1, (landmarked_start dialect text).2, booked_start dialect text⟩

/-- **One token.** -/
theorem Abreast.recorded {s : Scanner} (h : d.Abreast text s ts) (hrest : s.rest ≠ [])
    (hd : d.Recorded text ts (d.reach s)) :
    (d.takeToken s.scan.1).Recorded text (ts ++ [s.scan.1])
      ((d.takeToken s.scan.1).reach s.scan.2) := by
  have heffect := h.effect hrest
  have hle := h.reach_mono hrest
  obtain ⟨hmarks, hbehind⟩ := heffect.landmarked hd.landmarked hd.behindTags h.laid hle
  exact ⟨hmarks, hbehind, heffect.booked hd.booked hd.landmarked h.laid hle⟩

/-- **The end of the text** cuts off what is open. -/
theorem Booked.finish (h : d.Booked text ts pos) (hmarks : d.Landmarked ts pos)
    (hlaid : d.Laid text (size text)) (hle : pos ≤ size text) :
    ∃ left, d.finish.Ledger text ts left := by
  obtain ⟨left, hl, hm⟩ := h
  obtain ⟨below, habandoned, _⟩ := exists_abandoned_finish hlaid fun i e hi hdata =>
    (hmarks.opened i e hi (NodeData.element?_eq_some.2 hdata)).1
  have hunread (j : Nat) (hj : d.tree.Under d.current j) (c : Token) (hc : c ∈ ts)
      (hk : c.kind.ended? = some (d.tree.kind j)) : c.span.stop ≠ size text := by
    have hstop := hm.unread j hj c hc hk
    have hstart := hm.started j (TokenKind.isStructural_of_ended? hk)
    omega
  refine (habandoned.keeps (P := fun d => (∃ left, d.Ledger text ts left) ∧
    d.TagsWithin (size text) ∧ ∀ j, d.tree.Under d.current j → ∀ c ∈ ts,
      c.kind.ended? = some (d.tree.kind j) → c.span.stop ≠ size text)
    ⟨⟨left, hl⟩, hmarks.tagsWithin hle, hunread⟩ fun d d' step h => ?_).1
  obtain ⟨⟨left, hl⟩, htags, hunread⟩ := h
  refine ⟨⟨_, hl.abandons step htags fun _ => ⟨rfl, hunread d.current (.refl _ _)⟩⟩,
    htags.abandons step, fun j hj c hc hk => ?_⟩
  rw [step.kind_eq NodeData.kind_endedAt] at hk
  exact hunread j ((step.under_iff step.before.shape).1 hj).2 c hc hk

end Draft

end HybridMarkup
