/-
The values of attributes.

An attribute is open while its tokens are read, and what is read of its value is noted at once: each
piece widens what was noted before, a mustache in it once it has ended. So of the value there is
noted what the tokens cover (`Draft.ValueRead`). The next name or the end of the start tag closes
the attribute, and what is closed stays as it is.

What the tokens cover is a matter of their order, which the scanner sees to. Together this says what
the value of an attribute is (`NodeData.ValueOf`). Main statement: `Parse.attribute_values`, for all
texts that are read to their end.
-/
import HybridMarkup.Proofs.CopiedOnce
import HybridMarkup.Proofs.Payloads
import HybridMarkup.Proofs.ValueTokens

set_option autoImplicit false

namespace HybridMarkup

open Text

namespace NodeData

/-- The value of an attribute or a directive. -/
def value? : NodeData → Option Text
  | .attr a => a.value
  | .directive a => a.value
  | _ => none

/-- Where the value of an attribute or a directive stands. -/
def valueSpan? : NodeData → Option Span
  | .attr a => a.valueSpan
  | .directive a => a.valueSpan
  | _ => none

theorem kind_of_attribute? {data : NodeData} (h : data.attribute? ≠ none) :
    data.kind = .attr ∨ data.kind = .directive :=
  not_not.1 fun hother => h (attribute?_eq_none hother)

/-- A name alone says nothing of a value. -/
theorem valueSpan?_of_bare {data : NodeData} (h : data.attribute? = some data) :
    data.valueSpan? = none := by
  cases data <;> simp_all [attribute?, valueSpan?]
  · rw [← h]
  · rw [← h]

end NodeData

/-- The tokens of an attribute: it begins with its name, and `own` is what follows. -/
structure Tree.AttributeTokens (t : Tree) (ts : List Token) (i : Nat) (name : Token)
    (own behind : List Token) : Prop
    extends Stretch TokenKind.endsAttribute ts name own behind where
  named : name.attribute? = (t.data i).attribute?.map fun a => (a, (t.span i).start)
  noted : (t.data i).valueSpan? = (extent own).span

/-- The tokens are those of the node as long as it stays the same. -/
theorem Tree.AttributeTokens.congr {t t' : Tree} {ts ts' own behind behind' : List Token} {i : Nat}
    {name : Token} (h : t.AttributeTokens ts i name own behind) (hdata : t'.data i = t.data i)
    (hstart : (t'.span i).start = (t.span i).start)
    (hstretch : Stretch TokenKind.endsAttribute ts' name own behind') :
    t'.AttributeTokens ts' i name own behind' := by
  refine ⟨hstretch, ?_, ?_⟩
  · rw [hdata, hstart]
    exact h.named
  · rw [hdata]
    exact h.noted

namespace Draft

variable {text : Text} {s : Scanner} {d : Draft} {t name : Token} {ts own behind tail : List Token}
  {x : ValueExtent} {i : Nat}

theorem lt_size_of_attribute (hi : (d.tree.data i).attribute? ≠ none) : i < d.tree.size :=
  Tree.lt_size_of_data fun hroot => hi (by rw [hroot]; rfl)

/-! ## What is noted of a value -/

/-- A piece of the value is noted in the open attribute. -/
theorem valueSpan_attributeValue (hcurrent : d.current < d.tree.size)
    (hkind : d.currentKind = .attr ∨ d.currentKind = .directive) (span : Span) :
    ((d.attributeValue span).tree.data d.current).valueSpan?
      = some (Span.widen d.currentData.valueSpan? span) := by
  have hset (data : NodeData) (stop : Nat) :
      ((d.setCurrent data).extend stop).tree.data d.current = data :=
    (currentData_extend _ stop).trans (currentData_setCurrent data hcurrent)
  unfold attributeValue
  dsimp only
  split
  · next a hdata =>
    rw [hset, hdata]
    rfl
  · next a hdata =>
    rw [hset, hdata]
    rfl
  · next hattr hdirective =>
    have hdata : d.currentData.kind = .attr ∨ d.currentData.kind = .directive := hkind
    cases h : d.currentData with
    | attr a => exact absurd h (hattr a)
    | directive a => exact absurd h (hdirective a)
    | _ => simp [h, NodeData.kind] at hdata

/-- The value of the node is read: the node is open, or a mustache in it, which begins at `opened`.
-/
def ReadsValue (d : Draft) (i : Nat) (opened : Option Nat) : Prop :=
  d.current = i ∧ opened = none ∨
    d.currentKind = .mustache ∧ d.tree.parent d.current = some i ∧
      opened = some (d.tree.span d.current).start

/-- The value has been read up to a token that ends the attribute, or is still read. -/
structure ValueRead (d : Draft) (ts : List Token) (i : Nat) (name : Token)
    (own after : List Token) : Prop extends Tree.AttributeTokens d.tree ts i name own after where
  reading : after = [] → d.ReadsValue i (extent own).opened
  closed : after ≠ [] → d.Closed i

/-- Every attribute has its tokens. -/
def ValuesRead (d : Draft) (ts : List Token) : Prop :=
  ∀ i, (d.tree.data i).attribute? ≠ none → ∃ name own after, d.ValueRead ts i name own after

theorem valuesRead_start (dialect : Dialect) (text : Text) :
    (Draft.start dialect text).ValuesRead [] := by
  intro i hi
  have hdata : (Draft.start dialect text).tree.data i = .root := by cases i <;> rfl
  rw [hdata] at hi
  exact absurd rfl hi

/-! ## One token -/

/-- A mustache is opened in the attribute. -/
theorem reads_opened {data : NodeData} (hcurrent : d.current < d.tree.size)
    (hdata : data.kind = .mustache) (span : Span) :
    ((d.openNode data span).tree.data d.current).valueSpan? = d.currentData.valueSpan? ∧
      (d.openNode data span).ReadsValue d.current (some span.start) := by
  have htouches : d.Touches [data.kind] [] (d.openNode data span) :=
    touches_openNode hcurrent (by simp)
  refine ⟨?_, .inr ⟨?_, (node_leaf data span hcurrent).2, ?_⟩⟩
  · rw [htouches.data _ hcurrent (by simp)]
    rfl
  · exact (congrArg NodeData.kind (currentData_openNode data span hcurrent)).trans hdata
  · rw [span_openNode data span hcurrent]

/-- **A token that is read where the attribute itself is open.** -/
theorem reads_in_attribute (hcurrent : d.current < d.tree.size)
    (hi : d.currentKind = .attr ∨ d.currentKind = .directive) (hin : t.kind.inAttribute = true)
    (hexpects : d.Expects t.kind) (hnoted : d.currentData.valueSpan? = x.span)
    (hopened : x.opened = none) :
    ((d.build t).tree.data d.current).valueSpan? = (x.take t).span ∧
      (d.build t).ReadsValue d.current (x.take t).opened := by
  cases hkind : t.kind <;> simp [hkind, TokenKind.inAttribute, TokenKind.inValue] at hin
  case whitespace | unknown =>
    simp only [build, ValueExtent.take, hkind]
    exact ⟨hnoted, .inl ⟨rfl, hopened⟩⟩
  case attributeDelimiter | attributeMark =>
    simp only [build, ValueExtent.take, hkind]
    exact ⟨(congrArg NodeData.valueSpan? (currentData_extend d _)).trans hnoted,
      .inl ⟨rfl, hopened⟩⟩
  case attributeValue =>
    simp only [build, ValueExtent.take, hkind]
    refine ⟨?_, .inl ⟨TemplateArtifact.attributeValue_current d _, hopened⟩⟩
    rw [valueSpan_attributeValue hcurrent hi, hnoted]
  case mustacheStart =>
    simp only [build, ValueExtent.take, hkind]
    have hmustache : (NodeData.mustache [] (Span.empty t.span.stop)).kind = .mustache := rfl
    obtain ⟨hsame, hreads⟩ := reads_opened hcurrent hmustache t.span
    exact ⟨hsame.trans hnoted, hreads⟩
  case mustacheContent | mustacheEnd =>
    -- these are only read where a mustache is open
    rw [hkind] at hexpects
    rcases hi with hi | hi <;> simp [show d.currentKind = _ from hexpects] at hi

/-- **A token that is read where a mustache in the attribute is open.** -/
theorem reads_in_mustache (hshape : d.tree.Shape d.current)
    (hstart : (d.tree.span d.current).start ≤ t.span.stop)
    (hi : d.tree.kind i = .attr ∨ d.tree.kind i = .directive)
    (hkind : t.kind = .mustacheContent ∨ t.kind = .mustacheEnd)
    (hmustache : d.currentKind = .mustache) (hparent : d.tree.parent d.current = some i)
    (hnoted : (d.tree.data i).valueSpan? = x.span)
    (hopened : x.opened = some (d.tree.span d.current).start) :
    ((d.build t).tree.data i).valueSpan? = (x.take t).span ∧
      (d.build t).ReadsValue i (x.take t).opened := by
  have hlt := hshape.edge_lt
  rcases hkind with hkind | hkind
  · -- its code is noted in the mustache alone
    simp only [build, ValueExtent.take, hkind]
    have htouches : d.Touches [] [.mustache] (d.mustacheContent t) :=
      touches_mustacheContent (by simp) d t
    have hcurrent : (d.mustacheContent t).current = d.current := by
      unfold mustacheContent
      dsimp only
      split <;> rfl
    have hi' : d.tree.kind i ∉ [NodeKind.mustache] := by
      rcases hi with hi | hi <;> simp [hi]
    refine ⟨?_, .inr ⟨?_, ?_, ?_⟩⟩
    · rw [htouches.data i (Nat.lt_trans (hshape.parent_lt hparent) hlt) hi']
      exact hnoted
    · rw [currentKind, hcurrent, htouches.kinds _ hlt]
      exact hmustache
    · rw [hcurrent, htouches.parents _ hlt]
      exact hparent
    · rw [hcurrent, htouches.starts _ hlt]
      exact hopened
  · -- it is closed, and all of it becomes part of the value
    have hshuts := (sets_self d).shuts hshape hparent t.span.stop
    obtain rfl : i = (d.close t.span.stop).current := (current_close hparent _).symm
    have hspan : (d.close t.span.stop).tree.span d.current
        = ⟨(d.tree.span d.current).start, t.span.stop⟩ := by
      rw [Tree.span, hshuts.shut, Nat.max_eq_left hstart]
    have hdata : (d.close t.span.stop).currentData = d.tree.data (d.close t.span.stop).current :=
      data_close ..
    have hend : d.mustacheEnd t
        = (d.close t.span.stop).attributeValue ⟨(d.tree.span d.current).start, t.span.stop⟩ := by
      obtain ⟨code, inner, hmustache⟩ := exists_mustache hmustache
      unfold mustacheEnd
      rw [hmustache]
      dsimp only
      rw [hspan]
    simp only [build, ValueExtent.take, hkind, hopened, hend]
    refine ⟨?_, .inl ⟨TemplateArtifact.attributeValue_current _ _, rfl⟩⟩
    rw [valueSpan_attributeValue (shape_close hshape _).edge_lt, hdata, hnoted]
    rw [currentKind, Tree.kind, ← currentData, hdata]
    exact hi

/-- The fault of the token does not matter. -/
theorem ReadsValue.takeToken {opened : Option Nat} (h : (d.build t).ReadsValue i opened) :
    (d.takeToken t).ReadsValue i opened := by
  obtain ⟨htree, hcurrent, _⟩ := RawElement.takeToken_same d t
  unfold ReadsValue currentKind at h ⊢
  rw [htree, hcurrent]
  exact h

/-- The token that ends an attribute is the next name, or ends the start tag. -/
theorem endsAttribute_cases (hrest : s.rest ≠ []) (hends : s.scan.1.kind.endsAttribute = true) :
    s.scan.1.kind = .attributeName ∨ s.scan.1.kind = .directiveName ∨
      s.scan.1.kind = .startTagClose ∨ s.scan.1.kind = .startTagSelfClose := by
  have heos : s.scan.1.kind ≠ .eos := fun heos => hrest ((s.scan_kind_eq_eos_iff).1 heos)
  cases hkind : s.scan.1.kind <;> simp_all [TokenKind.endsAttribute]

/-- An attribute that is left is closed, and its element is open. -/
theorem left_of_inStartTag (hshape : d.tree.Shape d.current) (htag : d.InStartTag)
    (hkind : d.currentKind = .attr ∨ d.currentKind = .directive) :
    d.leaveAttribute.Closed d.current ∧ d.leaveAttribute.leaveAttribute = d.leaveAttribute := by
  obtain ⟨p, hparent, hp⟩ : ∃ p : Nat, d.tree.parent d.current = some p ∧
      d.tree.kind p = .element := by
    refine (htag.resolve_left fun helement => ?_).2
    rcases hkind with hkind | hkind <;> rw [helement] at hkind <;> simp at hkind
  have hlt := hshape.edge_lt
  have hleave : d.Touches [] [] d.leaveAttribute := touches_leaveAttribute d
  have hleft : d.leaveAttribute.current = p := by
    rw [TemplateArtifact.leaveAttribute_of_attribute hkind]
    unfold ascend
    rw [hparent]
    rfl
  constructor
  · refine closed_of_parent_current (shape_leaveAttribute hshape) ?_
    rw [hleave.parents _ hlt, hparent, hleft]
  · have helement : d.leaveAttribute.currentKind = .element := by
      rw [currentKind, hleft, hleave.kinds p (Nat.lt_trans (hshape.parent_lt hparent) hlt)]
      exact hp
    obtain ⟨e, he⟩ := exists_element helement
    exact RawElement.leaveAttribute_of_element he

section OneToken

variable (h : d.Abreast text s ts) (hrest : s.rest ≠ []) (hi : (d.tree.data i).attribute? ≠ none)
include h hrest hi

/-- An attribute is read on. -/
theorem Abreast.valueRead_extend (hstages : s.ValuesSettled ts)
    (hread : d.ValueRead ts i name own []) (hgoes : s.scan.1.kind.endsAttribute = false) :
    (d.takeToken s.scan.1).ValueRead (ts ++ [s.scan.1]) i name (own ++ [s.scan.1]) [] := by
  have htouches := touches_takeToken (t := s.scan.1) h.shape
  have hkind := NodeData.kind_of_attribute? hi
  have hlt := lt_size_of_attribute hi
  have hname : name.attribute? ≠ none := by
    rw [hread.named]
    simpa using hi
  have hin := Scanner.inAttribute_scan hrest
    ((hstages name own [] hread.toStretch hname).2 rfl).1 hgoes
  have hexpects := h.attuned.expects
  have hstep : ((d.build s.scan.1).tree.data i).valueSpan?
        = ((extent own).take s.scan.1).span ∧
      (d.build s.scan.1).ReadsValue i ((extent own).take s.scan.1).opened := by
    rcases hread.reading rfl with ⟨rfl, hopened⟩ | ⟨hmustache, hparent, hopened⟩
    · exact reads_in_attribute hlt hkind hin hexpects hread.noted hopened
    · have hstart : (d.tree.span d.current).start ≤ s.scan.1.span.stop := by
        rw [s.scan_span.1]
        exact Nat.le_trans (h.laid.start_le d.current)
          (Nat.le_trans h.reach_le (s.scan_span.2 ▸ Nat.le_add_right _ _))
      exact reads_in_mustache h.shape hstart hkind ((h.attuned.next_of_enclosed hrest).2 hmustache)
        hmustache hparent hread.noted hopened
  rw [← extent_snoc] at hstep
  refine ⟨⟨hread.extend hgoes, ?_, ?_⟩, fun _ => hstep.2.takeToken, fun hne => absurd rfl hne⟩
  · rw [htouches.names i hlt, htouches.starts i hlt]
    exact hread.named
  · rw [(RawElement.takeToken_same d s.scan.1).1]
    exact hstep.1

/-- An attribute ends. -/
theorem Abreast.valueRead_stop (hread : d.ValueRead ts i name own [])
    (hends : s.scan.1.kind.endsAttribute = true) :
    (d.takeToken s.scan.1).ValueRead (ts ++ [s.scan.1]) i name own [s.scan.1] := by
  have hkind := NodeData.kind_of_attribute? hi
  have hlt := lt_size_of_attribute hi
  have hcases := endsAttribute_cases hrest hends
  have htag : d.InStartTag := by
    have hexpects := h.attuned.expects
    rcases hcases with hcase | hcase | hcase | hcase <;> rwa [hcase] at hexpects
  obtain rfl : d.current = i := by
    rcases hread.reading rfl with ⟨hcurrent, _⟩ | ⟨hmustache, _⟩
    · exact hcurrent
    · rcases (h.attuned.next_of_enclosed hrest).2 hmustache with heq | heq <;>
        simp [heq, TokenKind.endsAttribute] at hends
  have hleave : d.Touches [] [] d.leaveAttribute := touches_leaveAttribute d
  obtain ⟨hclosed, hagain⟩ := left_of_inStartTag h.shape htag hkind
  -- the token would do the same if the attribute had been left before
  have htake : d.takeToken s.scan.1 = d.leaveAttribute.takeToken s.scan.1 := by
    unfold takeToken build
    rcases hcases with hcase | hcase | hcase | hcase <;>
      simp only [hcase, attributeName, startTagClose, startTagSelfClose, hagain]
  obtain ⟨hstays, hnode⟩ := spares_takeToken (shape_leaveAttribute h.shape) s.scan.1 _ hclosed
  rw [htake]
  refine ⟨hread.congr ?_ ?_ (hread.stop hends), fun hnil => by simp at hnil, fun _ => hstays⟩
  · exact (congrArg Node.data hnode).trans (hleave.data _ hlt (by simp))
  · exact (congrArg (fun n => n.span.start) hnode).trans (hleave.starts _ hlt)

end OneToken

/-- An attribute that has ended stays as it is. -/
theorem Abreast.valueRead_append {after : List Token} (h : d.Abreast text s ts)
    (hread : d.ValueRead ts i name own after) (hne : after ≠ []) :
    (d.takeToken s.scan.1).ValueRead (ts ++ [s.scan.1]) i name own (after ++ [s.scan.1]) := by
  obtain ⟨hstays, hnode⟩ := spares_takeToken h.shape s.scan.1 i (hread.closed hne)
  exact ⟨hread.congr (congrArg Node.data hnode) (congrArg (fun n => n.span.start) hnode)
    (hread.append hne _), fun hnil => by simp at hnil, fun _ => hstays⟩

/-- A name opens a new node. -/
theorem named_takeToken {a : NodeData × Nat} (hshape : d.tree.Shape d.current)
    (ha : t.attribute? = some a) :
    (d.takeToken t).current = d.tree.size ∧ (d.takeToken t).tree.size = d.tree.size + 1 ∧
      (d.takeToken t).tree.data d.tree.size = a.1 ∧
      (d.takeToken t).tree.span d.tree.size = t.span := by
  have hleft := (shape_leaveAttribute hshape).edge_lt
  have hleave : d.Touches [] [] d.leaveAttribute := touches_leaveAttribute d
  obtain ⟨htree, hcurrent, _⟩ := RawElement.takeToken_same d t
  obtain ⟨hopenTree, hopenCurrent⟩ := d.attributeName_same t a.1
  rw [htree, hcurrent, build_of_attribute ha, hopenTree, hopenCurrent, ← hleave.size_eq]
  exact ⟨rfl, size_leaf .., currentData_openNode a.1 t.span hleft, span_openNode a.1 t.span hleft⟩

/-- **A new attribute** begins with its name. -/
theorem Abreast.valueRead_new (h : d.Abreast text s ts) (hnew : d.tree.size ≤ i)
    (hi : ((d.takeToken s.scan.1).tree.data i).attribute? ≠ none) :
    (d.takeToken s.scan.1).ValueRead (ts ++ [s.scan.1]) i s.scan.1 [] [] := by
  have hlt := lt_size_of_attribute hi
  obtain ⟨a, ha⟩ : ∃ a, s.scan.1.attribute? = some a := by
    refine Option.ne_none_iff_exists'.1 fun hnone => ?_
    have hattached := kind_of_new h.shape hnew hlt
    rcases NodeData.kind_of_attribute? hi with hkind | hkind <;> rw [Tree.kind, hkind] at hattached
    all_goals
      cases hname : s.scan.1.kind <;> simp [hname, TokenKind.attaches] at hattached
      simp [Token.attribute?, hname] at hnone
  obtain ⟨hcurrent, hsize, hdata, hspan⟩ := named_takeToken h.shape ha
  rw [hsize] at hlt
  obtain rfl : i = d.tree.size := Nat.le_antisymm (Nat.le_of_lt_succ hlt) hnew
  obtain ⟨hbare, hstart⟩ := Token.bare_of_attribute? ha
  refine ⟨⟨.start _ ts _, ?_, ?_⟩, fun _ => .inl ⟨hcurrent, rfl⟩, fun hne => absurd rfl hne⟩
  · rw [ha, hdata, hspan, hbare, ← hstart]
    rfl
  · rw [hdata, NodeData.valueSpan?_of_bare hbare]
    rfl

/-- **One token** for an attribute: it belongs to its tokens, or stands behind them. -/
theorem Abreast.valuesRead (h : d.Abreast text s ts) (hrest : s.rest ≠ [])
    (hstages : s.ValuesSettled ts) (hreads : d.ValuesRead ts) :
    (d.takeToken s.scan.1).ValuesRead (ts ++ [s.scan.1]) := by
  intro i hi'
  by_cases hlt : i < d.tree.size
  · have hi := hi'
    rw [(touches_takeToken (t := s.scan.1) h.shape).names i hlt] at hi
    obtain ⟨name, own, after, hread⟩ := hreads i hi
    by_cases hne : after = []
    · subst hne
      cases hends : s.scan.1.kind.endsAttribute with
      | false => exact ⟨name, _, _, h.valueRead_extend hrest hi hstages hread hends⟩
      | true => exact ⟨name, _, _, h.valueRead_stop hrest hi hread hends⟩
    · exact ⟨name, _, _, h.valueRead_append hread hne⟩
  · exact ⟨_, _, _, h.valueRead_new (Nat.le_of_not_lt hlt) hi'⟩

/-- The end of the text ends the attributes. -/
theorem ValuesRead.finish (hreads : d.ValuesRead ts) (htail : ∀ c ∈ tail, c.kind = .eos)
    (hi : (d.finish.tree.data i).attribute? ≠ none) :
    ∃ name own behind, d.finish.tree.AttributeTokens (ts ++ tail) i name own behind ∧
      ∃ after, Stretch TokenKind.endsAttribute ts name own after := by
  have htouches := touches_finish d
  have hlt : i < d.tree.size := htouches.size_eq ▸ lt_size_of_attribute hi
  have hkind : d.tree.kind i ∉ [NodeKind.element] := by
    rw [← htouches.kinds i hlt, Tree.kind]
    rcases NodeData.kind_of_attribute? hi with hkind | hkind <;> simp [hkind]
  have hdata := htouches.data i hlt hkind
  obtain ⟨name, own, after, hread⟩ := hreads i (hdata ▸ hi)
  exact ⟨name, own, _, hread.congr hdata (htouches.starts i hlt) (hread.finish rfl htail), after,
    hread.toStretch⟩

end Draft

/-! ## What the value is -/

/-- What is noted of the value of an attribute, whose tokens behind its name are `own`. -/
structure NodeData.ValueOf (text : Text) (data : NodeData) (own : List Token) : Prop where
  few : (quotes own).length ≤ 2
  /-- Between two quotes the value is all that stands there. There is none if that is nothing. -/
  quoted : ∀ o c, quotes own = [o, c] →
    (data.value? = none ↔ o.span.stop = c.span.start) ∧
    (data.valueSpan? = none ↔ o.span.stop = c.span.start) ∧
    (o.span.stop ≠ c.span.start →
      data.valueSpan? = some ⟨o.span.stop, c.span.start⟩ ∧
      data.value? = some (slice text ⟨o.span.stop, c.span.start⟩))
  /-- Without quotes it is one token. -/
  unquoted : quotes own = [] → ∀ x ∈ pieces own, pieces own = [x] ∧ x.kind = .attributeValue ∧
    data.valueSpan? = some x.span ∧ data.value? = some x.lexeme
  /-- That of a directive is one token, too. -/
  directive : data.kind = .directive → ∀ x ∈ pieces own, pieces own = [x] ∧
    x.kind = .attributeValue ∧ data.valueSpan? = some x.span ∧ data.value? = some x.lexeme
  /-- Without the tokens of a value there is none. -/
  bare : pieces own = [] → data.value? = none ∧ data.valueSpan? = none

namespace NodeData

variable {text : Text} {data : NodeData} {own : List Token} {x : Token}

theorem Agrees.value {span : Span} (h : data.Agrees text span) :
    data.value? = data.valueSpan?.map (slice text) := by
  cases data with
  | attr a => exact h.1
  | directive a => exact h.1
  | _ => rfl

/-- A value that is read in one token is that token. -/
theorem value_of_whole (hnoted : data.valueSpan? = (extent own).span)
    (hvalue : data.value? = data.valueSpan?.map (slice text))
    (hlexeme : ∀ x ∈ own, slice text x.span = x.lexeme) (hwhole : Whole own) (hx : x ∈ pieces own) :
    pieces own = [x] ∧ x.kind = .attributeValue ∧ data.valueSpan? = some x.span ∧
      data.value? = some x.lexeme := by
  rcases hwhole with hnone | ⟨y, hsingle, hkind⟩
  · simp [hnone] at hx
  · obtain rfl : x = y := by simpa [hsingle] using hx
    have hspan : data.valueSpan? = some x.span := by
      rw [hnoted, extent_of_single hsingle hkind]
    refine ⟨hsingle, hkind, hspan, ?_⟩
    rw [hvalue, hspan, Option.map_some, hlexeme x (List.mem_filter.1 hx).1]

/-- Where the tokens are in order, what they cover is the value. -/
theorem valueOf (hsettled : Settled (data.kind == .directive) own)
    (hnoted : data.valueSpan? = (extent own).span)
    (hvalue : data.value? = data.valueSpan?.map (slice text))
    (hlexeme : ∀ x ∈ own, slice text x.span = x.lexeme) : data.ValueOf text own := by
  refine ⟨hsettled.few, fun o c hboth => ?_, fun hnone x hx => ?_, fun hdirective x hx => ?_,
    fun hnone => ?_⟩
  · have hspan : data.valueSpan? = Span.between o.span.stop c.span.start :=
      hnoted.trans (hsettled.quoted o c hboth)
    rw [hvalue, hspan, Span.between]
    split
    · next heq => simp [heq]
    · next hne => simp [hne]
  · exact value_of_whole hnoted hvalue hlexeme (hsettled.unquoted hnone) hx
  · exact value_of_whole hnoted hvalue hlexeme (hsettled.directive (by simp [hdirective])) hx
  · rw [hvalue, hnoted, extent_of_none hnone]
    exact ⟨rfl, rfl⟩

end NodeData

/-- The name of a directive is one of directives. -/
theorem Tree.AttributeTokens.isDirective {t : Tree} {ts own behind : List Token} {i : Nat}
    {name : Token} (h : t.AttributeTokens ts i name own behind)
    (hi : (t.data i).attribute? ≠ none) :
    (name.kind == .directiveName) = ((t.data i).kind == .directive) := by
  have hnamed := h.named
  cases hdata : t.data i <;> simp [hdata, NodeData.attribute?] at hi hnamed
  all_goals
    cases hkind : name.kind <;> simp [Token.attribute?, hkind] at hnamed
    rfl

/-- **The values of attributes.** Let the scanner come to the end of the text. Every attribute and
every directive has the tokens behind its name up to the next one, or to the end of the start tag,
and its value is what these say. -/
theorem Parse.attribute_values (options : ParseOptions) (text : Text)
    (hend : Scanner.ReachesEnd options.dialect text) :
    let p := ofText options text
    ∀ i, (p.tree.data i).attribute? ≠ none → ∃ name own behind,
      p.tree.AttributeTokens (tokenize options.dialect text) i name own behind ∧
      (p.tree.data i).ValueOf text own := by
  intro p i hi
  -- on the way to the end no value stands still, which the order of the tokens rests on
  obtain ⟨d, s, ts, tail, hfinish, h, ⟨_, hstages, hreads⟩, htokens, htail⟩ := Draft.exists_scanned
    (P := fun s d ts => (∃ n, s = (Scanner.start options.dialect text).after n) ∧
      s.ValuesSettled ts ∧ d.ValuesRead ts) options.dialect text
    ⟨⟨0, rfl⟩, Scanner.valuesSettled_nil _, Draft.valuesRead_start _ _⟩
    fun {s d ts} h hrest ⟨⟨n, hn⟩, hstages, hreads⟩ =>
      ⟨⟨n + 1, by rw [Scanner.after_succ, ← hn]⟩,
        Scanner.valuesSettled_scan hrest (hn ▸ hend.not_stalls n) hstages,
        h.valuesRead hrest hstages hreads⟩
  have htree : p.tree = d.finish.tree := by rw [hfinish]; rfl
  obtain ⟨name, own, behind, hown, after, hstretch⟩ := hreads.finish htail (htree ▸ hi)
  rw [← htokens, ← htree] at hown
  refine ⟨name, own, behind, hown, NodeData.valueOf ?_ hown.noted
    (Parse.data_agrees options text i).value fun x hx => ?_⟩
  · have hname : name.attribute? ≠ none := by
      rw [hown.named]
      simpa using hi
    rw [← hown.isDirective hi]
    exact (hstages name own after hstretch hname).1
  · obtain ⟨front, hsplit⟩ := hown.split
    have hmem : x ∈ tokenize options.dialect text := by
      rw [hsplit]
      simp [hx]
    obtain ⟨s, hs, rfl⟩ := Scanner.exists_of_mem_tokensIn (fun s h => Scanner.Within.scan h)
      (Scanner.start_within options.dialect text) hmem
    exact hs.token_slice

/-- A value with a blank mustache between its quotes. -/
theorem Parse.attribute_values_mustache :
    let text := "<a x='b\x7b\x7b \x7d\x7dc' :y=z w=''>".toList
    let tree := (ofText { dialect := .template } text).tree
    Scanner.ReachesEnd .template text ∧ (tree.data 2).attribute? ≠ none ∧
      ∃ name own behind, tree.AttributeTokens (tokenize .template text) 2 name own behind ∧
        (tree.data 2).ValueOf text own := by
  dsimp only
  have hend : Scanner.ReachesEnd .template "<a x='b\x7b\x7b \x7d\x7dc' :y=z w=''>".toList :=
    ⟨22, by decide +kernel⟩
  have hattribute : ((ofText { dialect := .template }
      "<a x='b\x7b\x7b \x7d\x7dc' :y=z w=''>".toList).tree.data 2).attribute? ≠ none := by
    decide +kernel
  exact ⟨hend, hattribute, attribute_values { dialect := .template } _ hend 2 hattribute⟩

/-- The values of that text: with a mustache, without quotes, and with nothing between them. -/
example :
    let tree := (Parse.ofText { dialect := .template }
      "<a x='b\x7b\x7b \x7d\x7dc' :y=z w=''>".toList).tree
    [2, 4, 5].map (fun i => ((tree.data i).value?.map String.ofList, (tree.data i).valueSpan?)) =
      [(some "b\x7b\x7b \x7d\x7dc", some ⟨6, 13⟩), (some "z", some ⟨18, 19⟩), (none, none)] := by
  decide +kernel

end HybridMarkup
