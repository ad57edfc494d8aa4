/-
Where the tags of an element stand.

Two places are noted in an element: where its start tag ends, and where its end tag begins. In the
end the first is known of every element, and the second of every element but those that end with
their start tags (`Element.Bodiless`). They divide the element (`Tree.Landmarks`): in front of the
first there are its attributes, between the two there is its content, and behind the second nothing
but the end tag.

The places are noted by different rules: by the two brackets that end a start tag, by the end tag,
which makes places up for what it closes on the way, and by the end of the text, which may find a
start tag that is cut short. Something is known of an open element only when its start tag has ended
(`Draft.Headed`). What is known of the closed ones and of the open ones (`Draft.Landmarked`) is
preserved by each of the things that a token can do. Next to it one fact about all start tags is
kept: where one has not ended, all others have ended in front of it (`Draft.BehindTags`), so that no
bracket stands where another start tag ends.
-/
import HybridMarkup.Proofs.TokenEffects

set_option autoImplicit false

namespace HybridMarkup

open Text

/-! ## Landmarks -/

namespace Element

variable {ts ts' : List Token} {e : Element} {t : Token}

/-- A bracket of its own ends the start tag. -/
def Bracketed (ts : List Token) (e : Element) : Prop :=
  ∃ c ∈ ts, c.kind = .startTagClose ∧ e.startTagEnd = some c.span.stop

/-- The element ends with its start tag: it closes itself, or it is void and a bracket ends its
start tag. -/
def Bodiless (ts : List Token) (e : Element) : Prop :=
  e.selfClose = true ∨ isVoid e.tag = true ∧ e.Bracketed ts

/-- Only the brackets matter that stand where the start tag ends. -/
theorem bracketed_congr (h : ∀ c : Token, c.kind = .startTagClose →
    e.startTagEnd = some c.span.stop → (c ∈ ts ↔ c ∈ ts')) :
    e.Bracketed ts ↔ e.Bracketed ts' := by
  refine exists_congr fun c => ?_
  constructor
  · rintro ⟨hc, hkind, hstop⟩
    exact ⟨(h c hkind hstop).1 hc, hkind, hstop⟩
  · rintro ⟨hc, hkind, hstop⟩
    exact ⟨(h c hkind hstop).2 hc, hkind, hstop⟩

end Element

namespace Tree

variable {t t' : Tree} {ts ts' : List Token} {i c st : Nat} {e : Element}

/-- **The landmarks of the element `i`**, the start tag of which ends at `st`. -/
structure Landmarks (t : Tree) (ts : List Token) (i : Nat) (e : Element) (st : Nat) : Prop where
  begins : (t.span i).start < st
  ends : st ≤ (t.span i).stop
  /-- The attributes stand in the start tag. -/
  attributes : ∀ c ∈ t.children i, t.kind c = .attr ∨ t.kind c = .directive →
    (t.span i).start ≤ (t.span c).start ∧ (t.span c).stop ≤ st
  /-- The other children stand behind it. -/
  content : ∀ c ∈ t.children i, ¬ (t.kind c = .attr ∨ t.kind c = .directive) →
    st ≤ (t.span c).start
  endTag : e.endTagStart = none ↔ e.Bodiless ts
  bodiless : e.Bodiless ts → t.HasOnlyAttributes i ∧ (t.span i).stop = st
  /-- What closes itself does so with a bracket that is no other one. -/
  selfClose : e.selfClose = true → ¬ e.Bracketed ts
  /-- All children end in front of the end tag. -/
  body : ∀ q, e.endTagStart = some q →
    st ≤ q ∧ q ≤ (t.span i).stop ∧ ∀ c ∈ t.children i, (t.span c).stop ≤ q

theorem Landmarks.congr_tokens (h : t.Landmarks ts i e st)
    (hsame : e.Bracketed ts ↔ e.Bracketed ts') : t.Landmarks ts' i e st := by
  have hbodiless : e.Bodiless ts ↔ e.Bodiless ts' :=
    or_congr_right (and_congr_right fun _ => hsame)
  exact ⟨h.begins, h.ends, h.attributes, h.content, h.endTag.trans hbodiless,
    fun hb => h.bodiless (hbodiless.2 hb), fun hself hb => h.selfClose hself (hsame.2 hb), h.body⟩

/-- The landmarks are a matter of the element and its children only. -/
theorem Landmarks.congr (h : t.Landmarks ts i e st) (hnode : t'.node i = t.node i)
    (hnodes : ∀ c ∈ t.children i, t'.node c = t.node c) : t'.Landmarks ts i e st := by
  have hspan : t'.span i = t.span i := by rw [span, hnode]; rfl
  have hchildren : t'.children i = t.children i := by rw [children, hnode]; rfl
  have hkinds (c : Nat) (hc : c ∈ t.children i) : t'.kind c = t.kind c := by
    rw [kind, data, hnodes c hc]
    rfl
  have hspans (c : Nat) (hc : c ∈ t.children i) : t'.span c = t.span c := by
    rw [span, hnodes c hc]
    rfl
  refine ⟨hspan ▸ h.begins, hspan ▸ h.ends, fun c hc hkind => ?_, fun c hc hkind => ?_, h.endTag,
    fun hb => ⟨fun c hc => ?_, hspan ▸ (h.bodiless hb).2⟩, h.selfClose, fun q hq => ?_⟩
  · rw [hchildren] at hc
    rw [hkinds c hc] at hkind
    rw [hspan, hspans c hc]
    exact h.attributes c hc hkind
  · rw [hchildren] at hc
    rw [hkinds c hc] at hkind
    rw [hspans c hc]
    exact h.content c hc hkind
  · rw [hchildren] at hc
    rw [hkinds c hc]
    exact (h.bodiless hb).1 c hc
  · obtain ⟨hle, hstop, hbody⟩ := h.body q hq
    refine ⟨hle, hspan ▸ hstop, fun c hc => ?_⟩
    rw [hchildren] at hc
    rw [hspans c hc]
    exact hbody c hc

theorem Shape.mem_children {edge : Nat} (h : t.Shape edge) (hc : c ∈ t.children i) :
    t.parent c = some i := by
  by_cases hi : i < t.size
  · rw [h.listed i hi] at hc
    simpa using (List.mem_filter.1 hc).2
  · rw [children_of_size_le (Nat.le_of_not_lt hi)] at hc
    exact absurd hc List.not_mem_nil

theorem Shape.children_iff {edge : Nat} (h : t.Shape edge) :
    c ∈ t.children i ↔ t.parent c = some i := by
  refine ⟨h.mem_children, fun hp => ?_⟩
  have hc := lt_size_of_parent hp
  rw [h.listed i (Nat.lt_trans (h.parent_lt hp) hc), List.mem_filter]
  exact ⟨List.mem_range.2 hc, decide_eq_true hp⟩

end Tree

namespace Draft

variable {text : Text} {d d' d₁ : Draft} {t : Token} {e e' : Element} {ts ts' : List Token}
  {new : Nat → NodeKind → Nat → Prop} {data : NodeData} {pos pos' i j p st stop : Nat}

/-- What is known of an open element the start tag of which ended at `st`. -/
structure Headed (d : Draft) (i st : Nat) : Prop where
  begins : (d.tree.span i).start < st
  attributes : ∀ c : Nat, d.tree.parent c = some i →
    d.tree.kind c = .attr ∨ d.tree.kind c = .directive → d.Closed c ∧ (d.tree.span c).stop ≤ st
  content : ∀ c : Nat, d.tree.parent c = some i →
    ¬ (d.tree.kind c = .attr ∨ d.tree.kind c = .directive) → st ≤ (d.tree.span c).start

/-- What is known of the elements at the place `pos`, behind the tokens `ts`. -/
structure Landmarked (d : Draft) (ts : List Token) (pos : Nat) : Prop where
  closed : ∀ i e, d.Closed i → (d.tree.data i).element? = some e →
    ∃ st, e.startTagEnd = some st ∧ d.tree.Landmarks ts i e st
  opened : ∀ i e, d.tree.Under d.current i → (d.tree.data i).element? = some e →
    e.endTagStart = none ∧ e.selfClose = false
  begun : ∀ i e st, d.tree.Under d.current i → (d.tree.data i).element? = some e →
    e.startTagEnd = some st → isVoid e.tag = false ∧ st ≤ pos ∧ d.Headed i st
  started : ∀ i, d.tree.kind i = .element → (d.tree.span i).start < pos

/-- Closed elements keep their landmarks. -/
theorem landmarks_spares (h : d.tree.Landmarks ts i e st) (hclosed : d.Closed i)
    (hshape : d.tree.Shape d.current) (hs : d.Spares d') : d'.tree.Landmarks ts i e st :=
  h.congr (hs i hclosed).2 fun c hc => (hs c (hclosed.child (hshape.mem_children hc))).2

/-- A closed element is closed before, as nothing of this closes it. -/
theorem Landmarked.closed_holds (h : d.Landmarked ts pos) (hshape : d.tree.Shape d.current)
    (hh : d.Holds new d') (hclosed : d'.Closed i) (hdata : (d'.tree.data i).element? = some e) :
    ∃ st, e.startTagEnd = some st ∧ d'.tree.Landmarks ts i e st := by
  have hkind : d'.tree.kind i = .element := Tree.kind_of_data (NodeData.element?_eq_some.1 hdata)
  have hbefore := hh.closed_of_closed (by rw [hkind]; rfl) hclosed
  rw [Tree.data, (hh.spares i hbefore).2] at hdata
  obtain ⟨st, hst, hmarks⟩ := h.closed i e hbefore hdata
  exact ⟨st, hst, landmarks_spares hmarks hbefore hshape hh.spares⟩

/-- An open element whose start tag has ended gets no more attributes. -/
theorem Headed.holds (h : d.Headed i st) (hh : d.Holds new d') (hi : i < d.tree.size)
    (hnew : ∀ k start, new i k start → ¬ (k = .attr ∨ k = .directive) ∧ st ≤ start) :
    d'.Headed i st := by
  have hfresh (c : Nat) (hp : d'.tree.parent c = some i) (hc : ¬ c < d.tree.size) :
      ¬ (d'.tree.kind c = .attr ∨ d'.tree.kind c = .directive) ∧
        st ≤ (d'.tree.span c).start := by
    obtain ⟨p, hparent, hkind⟩ := hh.grows.fresh c (Nat.le_of_not_lt hc) (Tree.lt_size_of_parent hp)
    rw [hp, Option.some.injEq] at hparent
    exact hnew _ _ (hparent ▸ hkind)
  refine ⟨by rw [hh.grows.starts i hi]; exact h.begins, fun c hp hkind => ?_, fun c hp hkind => ?_⟩
  · by_cases hc : c < d.tree.size
    · rw [hh.grows.parents c hc] at hp
      rw [hh.grows.kinds c hc] at hkind
      obtain ⟨hclosed, hstop⟩ := h.attributes c hp hkind
      obtain ⟨hclosed', hnode⟩ := hh.spares c hclosed
      refine ⟨hclosed', ?_⟩
      rw [Tree.span, hnode]
      exact hstop
    · exact absurd hkind (hfresh c hp hc).1
  · by_cases hc : c < d.tree.size
    · rw [hh.grows.parents c hc] at hp
      rw [hh.grows.kinds c hc] at hkind
      rw [hh.grows.starts c hc]
      exact h.content c hp hkind
    · exact (hfresh c hp hc).2

/-! ## What preserves them -/

theorem Landmarked.mono (h : d.Landmarked ts pos) (hle : pos ≤ pos') : d.Landmarked ts pos' := by
  refine ⟨h.closed, h.opened, fun i e st hi he hst => ?_, fun i hi => ?_⟩
  · obtain ⟨hvoid, hpos, hheaded⟩ := h.begun i e st hi he hst
    exact ⟨hvoid, Nat.le_trans hpos hle, hheaded⟩
  · exact Nat.lt_of_lt_of_le (h.started i hi) hle

/-- A token is read that is not the bracket of one of the closed elements. -/
theorem Landmarked.read (h : d.Landmarked ts pos) (hother : t.kind = .startTagClose →
    ∀ i e, d.Closed i → (d.tree.data i).element? = some e → e.startTagEnd ≠ some t.span.stop) :
    d.Landmarked (ts ++ [t]) pos := by
  refine ⟨fun i e hi he => ?_, h.opened, h.begun, h.started⟩
  obtain ⟨st, hst, hmarks⟩ := h.closed i e hi he
  refine ⟨st, hst, hmarks.congr_tokens (Element.bracketed_congr fun c hkind hstop => ?_)⟩
  rw [List.mem_append, List.mem_singleton]
  refine ⟨.inl, fun hc => hc.resolve_right ?_⟩
  rintro rfl
  exact hother hkind i e hi he hstop

/-- **What only adds to the draft.** -/
theorem Landmarked.retains (h : d.Landmarked ts pos) (hshape : d.tree.Shape d.current)
    (hr : d.Retains (d.Arrives ts' pos pos') d') (hle : pos ≤ pos') : d'.Landmarked ts pos' := by
  -- of a new element nothing is known
  have hold (i : Nat) (e : Element) (hi : d'.tree.Under d'.current i)
      (he : (d'.tree.data i).element? = some e) :
      i < d.tree.size ∧ d.tree.Under d.current i ∧ (d.tree.data i).element? = some e ∨ e = {} := by
    by_cases hlt : i < d.tree.size
    · exact .inl ⟨hlt, hr.spares.under_of_under hlt hi, (hr.elements i hlt).symm.trans he⟩
    · exact .inr (hr.begins i e (Nat.le_of_not_lt hlt) he)
  refine ⟨fun i e hi he => h.closed_holds hshape hr.toHolds hi he, fun i e hi he => ?_,
    fun i e st hi he hst => ?_, fun i hi => ?_⟩
  · rcases hold i e hi he with ⟨_, hunder, hdata⟩ | rfl
    · exact h.opened i e hunder hdata
    · exact ⟨rfl, rfl⟩
  · rcases hold i e hi he with ⟨hlt, hunder, hdata⟩ | rfl
    · obtain ⟨hvoid, hpos, hheaded⟩ := h.begun i e st hunder hdata hst
      refine ⟨hvoid, Nat.le_trans hpos hle, hheaded.holds hr.toHolds hlt fun k start hnew => ?_⟩
      refine ⟨fun hattribute => ?_, hnew.start ▸ hpos⟩
      -- attributes come only where the start tag has not ended
      obtain ⟨e', hdata', hunbegun⟩ := hnew.named hattribute
      obtain rfl := Option.some.inj (hdata.symm.trans hdata')
      simp [hunbegun] at hst
    · simp at hst
  · by_cases hlt : i < d.tree.size
    · rw [hr.grows.kinds i hlt] at hi
      rw [hr.grows.starts i hlt]
      exact Nat.lt_of_lt_of_le (h.started i hi) hle
    · have hsize : i < d'.tree.size := Tree.lt_size_of_structural (by rw [hi]; rfl)
      obtain ⟨p, _, hnew⟩ := hr.grows.fresh i (Nat.le_of_not_lt hlt) hsize
      rw [hnew.start]
      exact (hnew.structural (by rw [hi]; rfl)).1

/-- Nothing is added. -/
theorem Landmarked.keeps (h : d.Landmarked ts pos) (hshape : d.tree.Shape d.current)
    (hr : d.Retains Tree.NoNode d') : d'.Landmarked ts pos := by
  have harrives : d.Retains (d.Arrives [] pos pos) d' := hr.mono fun _ _ _ hnone => hnone.elim
  exact h.retains hshape harrives (Nat.le_refl _)

/-- **The open element takes note of something.** -/
theorem Landmarked.marks (h : d.Landmarked ts pos) (hshape : d.tree.Shape d.current)
    (hm : d.Marks e' d') (hle : pos ≤ pos')
    (hunended : e'.endTagStart = none ∧ e'.selfClose = false)
    (hheaded : ∀ st, e'.startTagEnd = some st →
      isVoid e'.tag = false ∧ st ≤ pos' ∧ d.Headed d.current st) : d'.Landmarked ts pos' := by
  have hsize := hm.grows.size_eq
  have hlt (i : Nat) (e : Element) (he : (d'.tree.data i).element? = some e) : i < d.tree.size :=
    hsize ▸ Tree.lt_size_of_element he
  have hold (i : Nat) (e : Element) (hi : d'.tree.Under d'.current i)
      (he : (d'.tree.data i).element? = some e) :
      i = d.current ∧ e = e' ∨ d.tree.Under d.current i ∧ (d.tree.data i).element? = some e := by
    by_cases hcurrent : i = d.current
    · rw [hcurrent, hm.marked] at he
      exact .inl ⟨hcurrent, (Option.some.inj he).symm⟩
    · exact .inr ⟨hm.spares.under_of_under (hlt i e he) hi,
        (hm.others i (hlt i e he) hcurrent).symm.trans he⟩
  refine ⟨fun i e hi he => h.closed_holds hshape hm.toHolds hi he, fun i e hi he => ?_,
    fun i e st hi he hst => ?_, fun i hi => ?_⟩
  · rcases hold i e hi he with ⟨_, rfl⟩ | ⟨hunder, hdata⟩
    · exact hunended
    · exact h.opened i e hunder hdata
  · rcases hold i e hi he with ⟨rfl, rfl⟩ | ⟨hunder, hdata⟩
    · obtain ⟨hvoid, hpos, hhead⟩ := hheaded st hst
      exact ⟨hvoid, hpos, hhead.holds hm.toHolds (hlt _ _ he) fun _ _ hnone => hnone.elim⟩
    · obtain ⟨hvoid, hpos, hhead⟩ := h.begun i e st hunder hdata hst
      exact ⟨hvoid, Nat.le_trans hpos hle,
        hhead.holds hm.toHolds (hlt _ _ he) fun _ _ hnone => hnone.elim⟩
  · have hi' : i < d.tree.size := hsize ▸ Tree.lt_size_of_structural (by rw [hi]; rfl)
    rw [hm.grows.kinds i hi'] at hi
    rw [hm.grows.starts i hi']
    exact Nat.lt_of_lt_of_le (h.started i hi) hle

/-- **The open node is left.** -/
theorem Landmarked.shuts (h : d.Landmarked ts pos) (hshape : d.tree.Shape d.current)
    (hs : d.Shuts data stop d') (hkind : data.kind = d.currentKind)
    (hnew : ∀ e, data.element? = some e →
      ∃ st, e.startTagEnd = some st ∧ d'.tree.Landmarks ts d.current e st) :
    d'.Landmarked ts pos := by
  have hspares := hs.spares hshape
  have hold (i : Nat) (e : Element) (hi : d'.tree.Under d'.current i)
      (he : (d'.tree.data i).element? = some e) :
      d.tree.Under d.current i ∧ (d.tree.data i).element? = some e := by
    obtain ⟨hne, hunder⟩ := (hs.under_iff hshape).1 hi
    rw [hs.data_eq, if_neg hne] at he
    exact ⟨hunder, he⟩
  refine ⟨fun i e hi he => ?_, fun i e hi he => ?_, fun i e st hi he hst => ?_, fun i hi => ?_⟩
  · rcases (hs.closed_iff hshape).1 hi with rfl | hclosed
    · rw [hs.data_eq, if_pos rfl] at he
      exact hnew e he
    · rw [Tree.data, (hspares i hclosed).2] at he
      obtain ⟨st, hst, hmarks⟩ := h.closed i e hclosed he
      exact ⟨st, hst, landmarks_spares hmarks hclosed hshape hspares⟩
  · obtain ⟨hunder, hdata⟩ := hold i e hi he
    exact h.opened i e hunder hdata
  · obtain ⟨hunder, hdata⟩ := hold i e hi he
    obtain ⟨hvoid, hpos, hhead⟩ := h.begun i e st hunder hdata hst
    refine ⟨hvoid, hpos, by rw [hs.start_eq]; exact hhead.begins, fun c hp hc => ?_,
      fun c hp hc => ?_⟩
    · rw [hs.parent_eq] at hp
      rw [hs.kind_eq hkind] at hc
      obtain ⟨hclosed, hstop⟩ := hhead.attributes c hp hc
      obtain ⟨hclosed', hnode⟩ := hspares c hclosed
      refine ⟨hclosed', ?_⟩
      rw [Tree.span, hnode]
      exact hstop
    · rw [hs.parent_eq] at hp
      rw [hs.kind_eq hkind] at hc
      rw [hs.start_eq]
      exact hhead.content c hp hc
  · rw [hs.kind_eq hkind] at hi
    rw [hs.start_eq]
    exact h.started i hi

/-! ## Closing elements -/

/-- With nothing but attributes behind it the start tag may end. -/
theorem headed_of_attributes (h : d.tree.HasOnlyAttributes d.current) (hlaid : d.Laid text pos)
    (hstart : (d.tree.span d.current).start < st) (hle : pos ≤ st) : d.Headed d.current st := by
  refine ⟨hstart, fun c hp _ => ⟨closed_of_parent_current hlaid.shape hp, ?_⟩, fun c hp hkind => ?_⟩
  · exact Nat.le_trans (hlaid.behind c (hlaid.ne_root_of_parent hp)) hle
  · exact absurd (h c ((hlaid.shape.children_iff).2 hp)) hkind

/-- **Where an element is closed it has its landmarks**, if its end tag does not begin in front of
its children. -/
theorem Headed.landmarks_shut (h : d.Headed d.current st) (hlaid : d.Laid text pos)
    (hs : d.Shuts (.element e) stop d') (hkind : d.currentKind = .element) (hle : st ≤ stop)
    (hend : e.endTagStart = none ↔ e.Bodiless ts)
    (hbodiless : e.Bodiless ts → d.tree.HasOnlyAttributes d.current ∧ stop = st)
    (hself : e.selfClose = true → ¬ e.Bracketed ts)
    (hbody : ∀ q, e.endTagStart = some q → st ≤ q ∧ q ≤ stop ∧ pos ≤ q) :
    d'.tree.Landmarks ts d.current e st := by
  have hshape := hlaid.shape
  have hbegins := h.begins
  have hspan : d'.tree.span d.current = ⟨(d.tree.span d.current).start, stop⟩ := by
    rw [Tree.span, hs.shut]
    exact congrArg (Span.mk _) (Nat.max_eq_left (by omega))
  have hkind' : (NodeData.element e).kind = d.currentKind := hkind.symm
  -- the children are closed, so they stay as they are
  have hchild (c : Nat) (hc : c ∈ d'.tree.children d.current) :
      d.tree.parent c = some d.current ∧ d'.tree.span c = d.tree.span c := by
    rw [hs.children_eq] at hc
    have hp := hshape.mem_children hc
    refine ⟨hp, ?_⟩
    rw [Tree.span, (hs.spares hshape c (closed_of_parent_current hshape hp)).2]
    rfl
  refine ⟨hspan ▸ hbegins, hspan ▸ hle, fun c hc hattr => ?_, fun c hc hattr => ?_, hend,
    fun hb => ⟨fun c hc => ?_, hspan ▸ (hbodiless hb).2⟩, hself, fun q hq => ?_⟩
  · obtain ⟨hp, hsame⟩ := hchild c hc
    rw [hs.kind_eq hkind'] at hattr
    rw [hspan, hsame]
    exact ⟨hlaid.starts c _ hp, (h.attributes c hp hattr).2⟩
  · obtain ⟨hp, hsame⟩ := hchild c hc
    rw [hs.kind_eq hkind'] at hattr
    rw [hsame]
    exact h.content c hp hattr
  · rw [hs.children_eq] at hc
    rw [hs.kind_eq hkind']
    exact (hbodiless hb).1 c hc
  · obtain ⟨hst, hstop, hpos⟩ := hbody q hq
    refine ⟨hst, hspan ▸ hstop, fun c hc => ?_⟩
    obtain ⟨hp, hsame⟩ := hchild c hc
    rw [hsame]
    exact Nat.le_trans (hlaid.behind c (hlaid.ne_root_of_parent hp)) hpos

/-- Where an open element has a start tag that is cut short, it has nothing but attributes, and no
bracket ends at `stop`. -/
def HeadsOnly (d : Draft) (ts : List Token) (stop : Nat) : Prop :=
  ∀ i e, d.tree.Under d.current i → (d.tree.data i).element? = some e → e.startTagEnd = none →
    d.tree.HasOnlyAttributes i ∧ ∀ c ∈ ts, c.kind = .startTagClose → c.span.stop ≠ stop

theorem HeadsOnly.abandons (h : d.HeadsOnly ts stop) (step : d.Abandons text stop d') :
    d'.HeadsOnly ts stop := by
  intro i e hi he hnone
  obtain ⟨hne, hunder⟩ := (step.under_iff step.before.shape).1 hi
  rw [step.data_eq, if_neg hne] at he
  obtain ⟨hattributes, hother⟩ := h i e hunder he hnone
  refine ⟨fun c hc => ?_, hother⟩
  rw [step.children_eq] at hc
  rw [step.kind_eq NodeData.kind_endedAt]
  exact hattributes c hc

/-- **An element that nothing closes** has its landmarks, some of them made up. -/
theorem Landmarked.abandons (h : d.Landmarked ts pos) (step : d.Abandons text stop d')
    (hle : pos ≤ stop) (hheads : d.HeadsOnly ts stop) : d'.Landmarked ts pos := by
  refine h.shuts step.before.shape step.toShuts NodeData.kind_endedAt fun e' he' => ?_
  cases hdata : d.currentData.element? with
  | none =>
    rw [NodeData.endedAt_other hdata, hdata] at he'
    simp at he'
  | some e =>
    have helement := NodeData.element?_eq_some.1 hdata
    have hkind : d.currentKind = .element := Tree.kind_of_data helement
    have hs := step.toShuts
    rw [helement] at he' hs
    rw [NodeData.endedAt_element] at he' hs
    obtain rfl := Option.some.inj he'
    obtain ⟨_, hself⟩ := h.opened d.current e (.refl _ _) hdata
    cases hst : e.startTagEnd with
    | some st =>
      rw [hst] at hs
      obtain ⟨hvoid, hpos, hhead⟩ := h.begun d.current e st (.refl _ _) hdata hst
      refine ⟨st, rfl,
        hhead.landmarks_shut step.before hs hkind (Nat.le_trans hpos hle) ?_ ?_ ?_ ?_⟩
      · simp [Element.Bodiless, hself, hvoid]
      · simp [Element.Bodiless, hself, hvoid]
      · simp [hself]
      · rintro q ⟨⟩
        exact ⟨Nat.le_trans hpos hle, Nat.le_refl _, Nat.le_refl _⟩
    | none =>
      rw [hst] at hs
      obtain ⟨hattributes, hother⟩ := hheads d.current e (.refl _ _) hdata hst
      have hstart := Nat.lt_of_lt_of_le (h.started d.current hkind) hle
      have hbody : ¬ ({ e with startTagEnd := some stop, endTagStart := some stop } :
          Element).Bodiless ts := by
        rintro (hcloses | ⟨_, c, hc, hclose, hstop⟩)
        · simp [hself] at hcloses
        · exact hother c hc hclose (Option.some.inj hstop).symm
      refine ⟨stop, rfl, (headed_of_attributes hattributes step.before hstart
        (Nat.le_refl _)).landmarks_shut step.before hs hkind (Nat.le_refl _) ?_ ?_ ?_ ?_⟩
      · exact iff_of_false (by simp) hbody
      · exact fun hb => absurd hb hbody
      · simp [hself]
      · rintro q ⟨⟩
        exact ⟨Nat.le_refl _, Nat.le_refl _, Nat.le_refl _⟩

/-- **What an end tag closes** has its landmarks, the last one where the tag begins. -/
theorem Landmarked.closesElement (h : d.Landmarked ts pos) (hlaid : d.Laid text pos)
    (hdata : d.currentData = .element e) (hbegun : e.startTagEnd ≠ none) (hle : pos ≤ stop)
    (hs : d.Shuts (.element { e with endTagStart := some pos }) stop d') :
    d'.Landmarked ts pos := by
  have hkind : d.currentKind = .element := Tree.kind_of_data hdata
  have helement : (d.tree.data d.current).element? = some e := NodeData.element?_eq_some.2 hdata
  obtain ⟨_, hself⟩ := h.opened d.current e (.refl _ _) helement
  obtain ⟨st, hst⟩ := Option.ne_none_iff_exists'.1 hbegun
  obtain ⟨hvoid, hpos, hhead⟩ := h.begun d.current e st (.refl _ _) helement hst
  have hbody : ¬ ({ e with endTagStart := some pos } : Element).Bodiless ts := by
    rintro (hcloses | ⟨hv, _⟩)
    · simp [hself] at hcloses
    · simp [hvoid] at hv
  refine h.shuts hlaid.shape hs hkind.symm fun e' he' => ?_
  obtain rfl := Option.some.inj he'
  refine ⟨st, hst, hhead.landmarks_shut hlaid hs hkind (Nat.le_trans hpos hle) ?_ ?_ ?_ ?_⟩
  · exact iff_of_false (by simp) hbody
  · exact fun hb => absurd hb hbody
  · simp [hself]
  · rintro q ⟨⟩
    exact ⟨hpos, hle, Nat.le_refl _⟩

/-- **An element that ends with its start tag** has its landmarks. -/
theorem AtBracket.landmarked (hb : d.AtBracket text ts pos e) (h : d.Landmarked (ts ++ [t]) pos)
    (hle : pos ≤ t.span.stop)
    (how : t.kind = .startTagClose ∧ isVoid e.tag = true ∧
        e' = { e with startTagEnd := some t.span.stop } ∨
      t.kind = .startTagSelfClose ∧
        e' = { e with selfClose := true, startTagEnd := some t.span.stop })
    (hs : d.Shuts (.element e') t.span.stop d') : d'.Landmarked (ts ++ [t]) pos := by
  have hkind : d.currentKind = .element := Tree.kind_of_data hb.data
  have helement : (d.tree.data d.current).element? = some e :=
    NodeData.element?_eq_some.2 hb.data
  obtain ⟨_, hself⟩ := h.opened d.current e (.refl _ _) helement
  have hstart := Nat.lt_of_lt_of_le (h.started d.current hkind) hle
  refine h.shuts hb.laid.shape hs hkind.symm fun e'' he => ?_
  obtain rfl := Option.some.inj he
  refine ⟨t.span.stop, ?_, (headed_of_attributes hb.attributes hb.laid hstart hle).landmarks_shut
    hb.laid hs hkind (Nat.le_refl _) ?_ (fun _ => ⟨hb.attributes, rfl⟩) ?_ ?_⟩
  · rcases how with ⟨_, _, rfl⟩ | ⟨_, rfl⟩ <;> rfl
  · rcases how with ⟨hclose, hvoid, rfl⟩ | ⟨_, rfl⟩
    · exact iff_of_true hb.unended (.inr ⟨hvoid, t, by simp, hclose, rfl⟩)
    · exact iff_of_true hb.unended (.inl rfl)
  · rcases how with ⟨_, _, rfl⟩ | ⟨hclose, rfl⟩
    · simp [hself]
    -- the other brackets stand in front
    · rintro - ⟨c, hc, hc', hstop⟩
      have hstop : t.span.stop = c.span.stop := Option.some.inj hstop
      rcases List.mem_append.1 hc with hc | hc
      · exact absurd (hb.later c hc hc') (Nat.not_lt_of_le (hstop ▸ hle))
      · rw [List.mem_singleton.1 hc, hclose] at hc'
        simp at hc'
  · intro q hq
    have hnone : e.endTagStart = some q := by rcases how with ⟨_, _, rfl⟩ | ⟨_, rfl⟩ <;> exact hq
    simp [hb.unended] at hnone

/-! ## Where start tags end -/

/-- All start tags have ended. -/
def AllBegun (d : Draft) : Prop := ∀ i e, (d.tree.data i).element? = some e → e.startTagEnd ≠ none

/-- An element whose start tag has not ended begins behind all start tags that have. -/
def BehindTags (d : Draft) : Prop :=
  ∀ i e, (d.tree.data i).element? = some e → e.startTagEnd = none →
    ∀ j e' st, (d.tree.data j).element? = some e' → e'.startTagEnd = some st →
      st ≤ (d.tree.span i).start

theorem AllBegun.behindTags (h : d.AllBegun) : d.BehindTags :=
  fun i e he hnone => absurd hnone (h i e he)

/-- The start tags of closed elements have ended, so it is enough if those of the open ones have. -/
theorem Landmarked.allBegun (h : d.Landmarked ts pos)
    (hopen : ∀ i e, d.tree.Under d.current i → (d.tree.data i).element? = some e →
      e.startTagEnd ≠ none) : d.AllBegun := by
  intro i e he
  by_cases hunder : d.tree.Under d.current i
  · exact hopen i e hunder he
  · obtain ⟨st, hst, _⟩ := h.closed i e ⟨Tree.lt_size_of_element he, hunder⟩ he
    simp [hst]

/-- Start tags end where the draft is, or in front of it. -/
theorem Landmarked.startTagEnd_le (h : d.Landmarked ts pos) (hlaid : d.Laid text pos)
    (he : (d.tree.data i).element? = some e) (hst : e.startTagEnd = some st) : st ≤ pos := by
  by_cases hunder : d.tree.Under d.current i
  · exact (h.begun i e st hunder he hst).2.1
  · obtain ⟨st', hst', hmarks⟩ := h.closed i e ⟨Tree.lt_size_of_element he, hunder⟩ he
    obtain rfl := Option.some.inj (hst.symm.trans hst')
    refine Nat.le_trans hmarks.ends (hlaid.behind i (hlaid.ne_root_of_data
      (NodeData.element?_eq_some.1 he) ?_))
    simp [NodeData.kind]

theorem AllBegun.retains (h : d.AllBegun) (hr : d.Retains Tree.NoNode d') : d'.AllBegun := by
  intro i e he
  have hi : i < d.tree.size := hr.grows.size_eq ▸ Tree.lt_size_of_element he
  exact h i e ((hr.elements i hi).symm.trans he)

theorem AllBegun.shuts (h : d.AllBegun) (hs : d.Shuts data stop d')
    (hdata : ∀ e, data.element? = some e → e.startTagEnd ≠ none) : d'.AllBegun := by
  intro i e he
  rw [hs.data_eq] at he
  split at he
  · exact hdata e he
  · exact h i e he

theorem AllBegun.abandons (h : d.AllBegun) (step : d.Abandons text stop d') : d'.AllBegun := by
  refine h.shuts step.toShuts fun e he => ?_
  cases hdata : d.currentData with
  | element e' =>
    rw [hdata, NodeData.endedAt_element] at he
    exact Option.some.inj he ▸ by simp
  | _ =>
    rw [hdata, NodeData.endedAt_other rfl] at he
    simp [NodeData.element?] at he

theorem AllBegun.headsOnly (h : d.AllBegun) : d.HeadsOnly ts stop :=
  fun i e _ he hnone => absurd hnone (h i e he)

/-- What only adds to the draft keeps it so, if what is new begins behind all start tags. -/
theorem BehindTags.retains (h : d.BehindTags) (hr : d.Retains new d')
    (hnew : ∀ p k start, new p k start → ∀ j e st, (d.tree.data j).element? = some e →
      e.startTagEnd = some st → st ≤ start) : d'.BehindTags := by
  intro i e he hnone j e' st he' hst
  by_cases hj : j < d.tree.size
  · have hj' := (hr.elements j hj).symm.trans he'
    by_cases hi : i < d.tree.size
    · rw [hr.grows.starts i hi]
      exact h i e ((hr.elements i hi).symm.trans he) hnone j e' st hj' hst
    · obtain ⟨p, _, hfresh⟩ :=
        hr.grows.fresh i (Nat.le_of_not_lt hi) (Tree.lt_size_of_element he)
      exact hnew _ _ _ hfresh j e' st hj' hst
  · rw [hr.begins j e' (Nat.le_of_not_lt hj) he'] at hst
    simp at hst

/-- The element gets its name, and no start tag ends. -/
theorem BehindTags.marks (h : d.BehindTags) (hdata : d.currentData = .element {}) {name : Text}
    (hm : d.Marks { tag := name } d') : d'.BehindTags := by
  -- but for the name every element is what it was
  have hold (i : Nat) (e : Element) (he : (d'.tree.data i).element? = some e) :
      i < d.tree.size ∧ ∃ e', (d.tree.data i).element? = some e' ∧
        e'.startTagEnd = e.startTagEnd := by
    have hi : i < d.tree.size := hm.grows.size_eq ▸ Tree.lt_size_of_element he
    refine ⟨hi, ?_⟩
    by_cases hcurrent : i = d.current
    · rw [hcurrent, hm.marked] at he
      obtain rfl := Option.some.inj he
      exact ⟨{}, by rw [hcurrent]; exact NodeData.element?_eq_some.2 hdata, rfl⟩
    · exact ⟨e, (hm.others i hi hcurrent).symm.trans he, rfl⟩
  intro i e he hnone j e' st he' hst
  obtain ⟨hi, e₁, he₁, hsame₁⟩ := hold i e he
  obtain ⟨_, e₂, he₂, hsame₂⟩ := hold j e' he'
  rw [hm.grows.starts i hi]
  exact h i e₁ he₁ (hsame₁.trans hnone) j e₂ st he₂ (hsame₂.trans hst)

/-- What is left is no element. -/
theorem BehindTags.shuts (h : d.BehindTags) (hs : d.Shuts data stop d')
    (hother : data.element? = none) : d'.BehindTags := by
  have hold (i : Nat) (e : Element) (he : (d'.tree.data i).element? = some e) :
      (d.tree.data i).element? = some e := by
    rw [hs.data_eq] at he
    split at he
    · simp [hother] at he
    · exact he
  intro i e he hnone j e' st he' hst
  rw [hs.start_eq]
  exact h i e (hold i e he) hnone j e' st (hold j e' he') hst

/-! ## All tokens -/

/-- In front of a bracket all start tags have ended but the one that it ends. -/
theorem AtBracket.startTagEnd_lt (hb : d.AtBracket text ts pos e) (h : d.Landmarked ts pos)
    (hbehind : d.BehindTags) (he : (d.tree.data i).element? = some e')
    (hst : e'.startTagEnd = some st) : st < pos := by
  refine Nat.lt_of_le_of_lt (hbehind d.current e ?_ hb.unbegun i e' st he hst)
    (h.started d.current (Tree.kind_of_data hb.data))
  exact NodeData.element?_eq_some.2 hb.data

/-- The bracket is read. -/
theorem AtBracket.read (hb : d.AtBracket text ts pos e) (h : d.Landmarked ts pos)
    (hbehind : d.BehindTags) (hle : pos ≤ t.span.stop) : d.Landmarked (ts ++ [t]) pos := by
  refine h.read fun _ i e' _ he hst => ?_
  exact absurd (hb.startTagEnd_lt h hbehind he hst) (Nat.not_lt_of_le hle)

/-- **What a token can do keeps the landmarks.** -/
theorem Effect.landmarked (heffect : Effect text ts pos pos' t d d') (h : d.Landmarked ts pos)
    (hbehind : d.BehindTags) (hlaid : d.Laid text pos) (hle : pos ≤ pos') :
    d'.Landmarked (ts ++ [t]) pos' ∧ d'.BehindTags := by
  have hshape := hlaid.shape
  cases heffect with
  | adds kind hr =>
    have hread : d.Landmarked (ts ++ [t]) pos := h.read fun hclose => by
      rcases kind with hkind | hkind
      · simp [hclose, TokenKind.retains] at hkind
      · simp [hclose] at hkind
    exact ⟨hread.retains hshape hr hle, hbehind.retains hr fun _ _ _ hnew j e st he hst =>
      hnew.start ▸ h.startTagEnd_le hlaid he hst⟩
  | @ends data d₁ kind same alone hstop hs after =>
    have hother : data.element? = none := by
      refine NodeData.element?_eq_none fun helement => ?_
      rw [← same, helement] at kind
      cases hk : t.kind <;> simp [hk, TokenKind.ended?] at kind
    have hread : d.Landmarked (ts ++ [t]) pos := h.read fun hclose => by
      simp [hclose, TokenKind.ended?] at kind
    have hshut := hread.shuts hshape hs.toShuts same fun e he => by simp [hother] at he
    exact ⟨(hshut.keeps (hs.shape hshape) after).mono hle,
      (hbehind.shuts hs.toShuts hother).retains after fun _ _ _ hnone => hnone.elim⟩
  | names kind hdata hm =>
    have hread : d.Landmarked (ts ++ [t]) pos := h.read fun hclose => by simp [hclose] at kind
    exact ⟨hread.marks hshape hm hle ⟨rfl, rfl⟩ fun _ hst => by simp at hst,
      hbehind.marks hdata hm⟩
  | @begins d₁ e kind hstop before hb void hm =>
    subst hstop
    have h₁ := h.keeps hshape before
    have hread := hb.read (t := t) h₁ (hbehind.retains before fun _ _ _ hnone => hnone.elim) hle
    have hstart := Nat.lt_of_lt_of_le (h₁.started d₁.current (Tree.kind_of_data hb.data)) hle
    have hmarked : d'.Landmarked (ts ++ [t]) t.span.stop := by
      refine hread.marks hb.laid.shape hm hle ⟨hb.unended, ?_⟩ fun st hst => ?_
      · exact (h₁.opened d₁.current e (.refl _ _) (NodeData.element?_eq_some.2 hb.data)).2
      · obtain rfl := Option.some.inj hst
        exact ⟨void, Nat.le_refl _, headed_of_attributes hb.attributes hb.laid hstart hle⟩
    refine ⟨hmarked, (hmarked.allBegun fun i e' hi he => ?_).behindTags⟩
    have hlt : i < d₁.tree.size := hm.grows.size_eq ▸ Tree.lt_size_of_element he
    by_cases hcurrent : i = d₁.current
    · rw [hcurrent, hm.marked] at he
      exact Option.some.inj he ▸ by simp
    · exact hb.begun i e' (hm.spares.under_of_under hlt hi)
        ((hm.others i hlt hcurrent).symm.trans he) hcurrent
  | @completes d₁ d₂ e e' hstop before hb how hs after =>
    subst hstop
    have h₁ := h.keeps hshape before
    have hread := hb.read (t := t) h₁ (hbehind.retains before fun _ _ _ hnone => hnone.elim) hle
    have hshut := hb.landmarked hread hle how hs.toShuts
    have hall : d₂.AllBegun := hshut.allBegun fun i e' hi he => by
      obtain ⟨hne, hunder⟩ := (hs.under_iff hb.laid.shape).1 hi
      rw [hs.data_eq, if_neg hne] at he
      exact hb.begun i e' hunder he hne
    exact ⟨(hshut.keeps (hs.shape hb.laid.shape) after).mono hle,
      (hall.retains after).behindTags⟩
  | @closes d₁ d₂ d₃ below e tag name kind tokens is lt hstop begun nested before laid abandoned
      hdata same hs after =>
    have hread : d.Landmarked (ts ++ [t]) pos := h.read fun hclose => by simp [hclose] at kind
    have hall : d.AllBegun := h.allBegun fun i e hi he => begun.of_under hi he
    obtain ⟨h₂, hall₂, hlaid₂⟩ := abandoned.keeps
      (P := fun d => d.Landmarked (ts ++ [t]) pos ∧ d.AllBegun ∧ d.Laid text pos)
      ⟨hread.keeps hshape before, hall.retains before, laid⟩ fun _ _ step h =>
        ⟨h.1.abandons step (Nat.le_refl _) h.2.1.headsOnly, h.2.1.abandons step, step.after⟩
    have hbegun := hall₂ d₂.current e (NodeData.element?_eq_some.2 hdata)
    have hshut := h₂.closesElement hlaid₂ hdata hbegun hle hs.toShuts
    have hall₃ : d₃.AllBegun := hall₂.shuts hs.toShuts fun e' he => Option.some.inj he ▸ hbegun
    exact ⟨(hshut.keeps (hs.shape hlaid₂.shape) after).mono hle,
      (hall₃.retains after).behindTags⟩

theorem landmarked_start (dialect : Dialect) (text : Text) :
    (Draft.start dialect text).Landmarked [] 0 ∧ (Draft.start dialect text).BehindTags := by
  have hdata (i : Nat) : (Draft.start dialect text).tree.data i = .root := by cases i <;> rfl
  have hnone {i : Nat} {e : Element} {P : Prop}
      (he : ((Draft.start dialect text).tree.data i).element? = some e) : P := by
    rw [hdata] at he
    simp [NodeData.element?] at he
  refine ⟨⟨fun _ _ _ => hnone, fun _ _ _ => hnone, fun _ _ _ _ he => hnone he, fun i hi => ?_⟩,
    fun _ _ => hnone⟩
  rw [Tree.kind, hdata] at hi
  simp [NodeData.kind] at hi

/-- **Where the text ends** only the innermost start tag may be cut short. -/
theorem Abreast.headsOnly {s : Scanner} (h : d.Abreast text s ts) :
    d.HeadsOnly ts (size text) := by
  intro i e hi he hnone
  by_cases htemplate : s.dialect = .template
  · have htagged := (h.tracked htemplate).tagged
    unfold Tagged at htagged
    split at htagged
    · obtain ⟨j, e', outer, hamid⟩ := htagged
      rcases List.mem_cons.1 (hamid.opened.mem_of_under h.shape.root hi he) with heq | houter
      · obtain ⟨rfl, rfl⟩ := Prod.mk.inj heq
        refine ⟨hamid.attributes, fun c hc hkind => Nat.ne_of_lt ?_⟩
        exact Nat.lt_of_lt_of_le (hamid.later c hc hkind) h.sits.laidAt.laid.pos_le
      · exact absurd hnone (hamid.begun _ houter)
    · exact absurd hnone (htagged.of_under hi he)
  · rcases h.attuned with ⟨_, _, hsynced⟩ | ⟨_, _, hfollows, _⟩
    · exact absurd (Tree.kind_of_data (NodeData.element?_eq_some.1 he))
        (hsynced.kind_ne_element hi)
    · exact absurd hfollows.dialect htemplate

/-- **The end of the text.** -/
theorem Landmarked.finish (h : d.Landmarked ts pos) (hheads : d.HeadsOnly ts (size text))
    (hlaid : d.Laid text (size text)) (hle : pos ≤ size text) :
    d.finish.Landmarked ts pos ∧ d.finish.current = Tree.root := by
  obtain ⟨below, habandoned, hcurrent⟩ := exists_abandoned_finish hlaid fun i e hi hdata =>
    (h.opened i e hi (NodeData.element?_eq_some.2 hdata)).1
  refine ⟨(habandoned.keeps (P := fun d => d.Landmarked ts pos ∧ d.HeadsOnly ts (size text))
    ⟨h, hheads⟩ fun _ _ step h => ?_).1, hcurrent⟩
  exact ⟨h.1.abandons step hle h.2, h.2.abandons step⟩

/-- Nothing is open but the root. -/
theorem closed_of_root (hshape : d.tree.Shape d.current) (hcurrent : d.current = Tree.root)
    (hi : i < d.tree.size) (hne : i ≠ Tree.root) : d.Closed i :=
  ⟨hi, fun hunder => hne ((hcurrent ▸ hunder).eq_of_orphan hshape.root)⟩

/-- **In the end every element has its landmarks**, whatever other tokens there are. -/
theorem Landmarked.exists_landmarks (h : d.Landmarked ts pos) (hlaid : d.Laid text stop)
    (hcurrent : d.current = Tree.root) (hinitial : ts <+: ts')
    (hmem : ∀ c ∈ ts', c.kind ≠ .eos → c ∈ ts) (hdata : d.tree.data i = .element e) :
    ∃ st, e.startTagEnd = some st ∧ d.tree.Landmarks ts' i e st := by
  have helement := NodeData.element?_eq_some.2 hdata
  have hne := hlaid.ne_root_of_data hdata (by simp [NodeData.kind])
  obtain ⟨st, hst, hland⟩ := h.closed i e
    (closed_of_root hlaid.shape hcurrent (Tree.lt_size_of_element helement) hne) helement
  refine ⟨st, hst, hland.congr_tokens (Element.bracketed_congr fun c hkind _ => ?_)⟩
  exact ⟨fun hc => hinitial.subset hc, fun hc => hmem c hc (by simp [hkind])⟩

end Draft

/-- **The tags of an element stand in order.** Of every element of a parsed document it is known
where the start tag ends, and the attributes stand in front of that place and the other children
behind it. The elements that close themselves, and the void ones whose start tag is ended by a
bracket, end there and have no other children. Of all others it is known where the end tag begins,
and all children stand in front of that place. -/
theorem Parse.landmarks {options : ParseOptions} {text : Text} {i : NodeId} {e : Element}
    (hdata : (Parse.ofText options text).tree.data i = .element e) :
    ∃ st, e.startTagEnd = some st ∧
      (Parse.ofText options text).tree.Landmarks (tokenize options.dialect text) i e st := by
  have hdata : (draft options.dialect text).tree.data i = .element e := hdata
  obtain ⟨d, s, ts, hfinish, habreast, ⟨hmarks, _⟩, hinitial, hmem⟩ :=
    Draft.exists_abreast (P := fun d ts pos => d.Landmarked ts pos ∧ d.BehindTags)
      options.dialect text (Draft.landmarked_start options.dialect text) fun h hrest hP =>
        (h.effect hrest).landmarked hP.1 hP.2 h.laid (h.reach_mono hrest)
  have hlaid := habreast.laid
  obtain ⟨hfinal, hcurrent⟩ := hmarks.finish habreast.headsOnly
    (hlaid.mono hlaid.pos_le (Nat.le_refl _)) hlaid.pos_le
  rw [hfinish] at hfinal hcurrent
  exact hfinal.exists_landmarks (draft_laid options.dialect text).1 hcurrent hinitial hmem hdata

/-- The bold text is not closed, and ends where the end tag of the paragraph begins. -/
theorem Parse.landmarks_unclosed :
    (Parse.ofText { dialect := .template } "<p><b a>x</p>".toList).tree.data 2 = .element
        { tag := "b".toList, startTagEnd := some 8, endTagStart := some 9 } ∧
      ∃ st, some 8 = some st ∧
        (Parse.ofText { dialect := .template } "<p><b a>x</p>".toList).tree.Landmarks
          (tokenize .template "<p><b a>x</p>".toList) 2
          { tag := "b".toList, startTagEnd := some 8, endTagStart := some 9 } st :=
  ⟨by decide +kernel, @Parse.landmarks { dialect := .template } "<p><b a>x</p>".toList 2
    { tag := "b".toList, startTagEnd := some 8, endTagStart := some 9 } (by decide +kernel)⟩

end HybridMarkup
