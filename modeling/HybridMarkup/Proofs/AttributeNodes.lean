/-
The attributes of an element and the names in its start tag.

A start tag is a stretch of the tokens: it begins with a bracket and goes on until a token ends it
(`Stretch`). Every name in it becomes a child of the element, and these children come in the order of
the names, each beginning where its name does (`Tree.StartTag`). Other tokens attach no attributes
and change no names, and while a start tag is read there is no other element whose start tag has not
ended, so a name is attached to the element in whose start tag it stands (`Draft.Listed`).

Main statement: `Draft.Abreast.listed`, that one more token keeps it so.
-/
import HybridMarkup.Proofs.Footprints
import HybridMarkup.Proofs.Landmarks
import Mathlib.Data.List.DropRight

set_option autoImplicit false

namespace HybridMarkup

open Text

/-! ## Stretches of tokens -/

/-- Behind the token `o` the tokens go on with `inside`, where no token ends the stretch. What is
`behind` that begins with a token that does, unless it is empty. -/
structure Stretch (ends : TokenKind → Bool) (ts : List Token) (o : Token)
    (inside behind : List Token) : Prop where
  split : ∃ front, ts = front ++ o :: (inside ++ behind)
  inside : ∀ c ∈ inside, ends c.kind = false
  behind : ∀ c ∈ behind.head?, ends c.kind = true

namespace Stretch

variable {ends : TokenKind → Bool} {ts tail inside behind : List Token} {o t : Token}

theorem start (ends : TokenKind → Bool) (ts : List Token) (o : Token) :
    Stretch ends (ts ++ [o]) o [] [] :=
  ⟨⟨ts, rfl⟩, fun c hc => by simp at hc, fun c hc => by simp at hc⟩

/-- One more token belongs to the stretch. -/
theorem extend (h : Stretch ends ts o inside []) (ht : ends t.kind = false) :
    Stretch ends (ts ++ [t]) o (inside ++ [t]) [] := by
  obtain ⟨front, rfl⟩ := h.split
  refine ⟨⟨front, by simp⟩, fun c hc => ?_, fun c hc => by simp at hc⟩
  rcases List.mem_append.1 hc with hc | hc
  · exact h.inside c hc
  · exact List.mem_singleton.1 hc ▸ ht

/-- The stretch ends. -/
theorem stop (h : Stretch ends ts o inside []) (ht : ends t.kind = true) :
    Stretch ends (ts ++ [t]) o inside [t] := by
  obtain ⟨front, rfl⟩ := h.split
  refine ⟨⟨front, by simp⟩, h.inside, fun c hc => ?_⟩
  obtain rfl : t = c := by simpa using hc
  exact ht

/-- What is read once the stretch has ended is no matter. -/
theorem append (h : Stretch ends ts o inside behind) (hne : behind ≠ []) (tail : List Token) :
    Stretch ends (ts ++ tail) o inside (behind ++ tail) := by
  obtain ⟨front, rfl⟩ := h.split
  refine ⟨⟨front, by simp⟩, h.inside, fun c hc => ?_⟩
  rw [List.head?_append_of_ne_nil _ hne] at hc
  exact h.behind c hc

/-- The end of the text ends every stretch. -/
theorem finish (h : Stretch ends ts o inside behind) (heos : ends .eos = true)
    (htail : ∀ c ∈ tail, c.kind = .eos) : Stretch ends (ts ++ tail) o inside (behind ++ tail) := by
  by_cases hne : behind = []
  · subst hne
    obtain ⟨front, rfl⟩ := h.split
    refine ⟨⟨front, by simp⟩, h.inside, fun c hc => ?_⟩
    rw [htail c (List.mem_of_mem_head? hc)]
    exact heos
  · exact h.append hne tail

/-- The last token is the first of the stretch, or belongs to it, or stands behind it. -/
theorem snoc_cases (h : Stretch ends (ts ++ [t]) o inside behind) :
    o = t ∧ inside = [] ∧ behind = [] ∨
      (∃ inside', inside = inside' ++ [t] ∧ behind = [] ∧ Stretch ends ts o inside' [] ∧
        ends t.kind = false) ∨
      ∃ behind', behind = behind' ++ [t] ∧ Stretch ends ts o inside behind' := by
  obtain ⟨front, hsplit⟩ := h.split
  rcases behind.eq_nil_or_concat with rfl | ⟨behind', t', rfl⟩
  · rw [List.append_nil] at hsplit
    rcases inside.eq_nil_or_concat with rfl | ⟨inside', t', rfl⟩
    · obtain ⟨_, heq⟩ := List.append_inj' hsplit rfl
      exact .inl ⟨(List.singleton_inj.1 heq).symm, rfl, rfl⟩
    · rw [List.concat_eq_append, ← List.cons_append, ← List.append_assoc] at hsplit
      obtain ⟨rfl, heq⟩ := List.append_inj' hsplit rfl
      obtain rfl := List.singleton_inj.1 heq
      refine .inr (.inl ⟨inside', List.concat_eq_append .., rfl, ⟨⟨front, by simp⟩, ?_, ?_⟩, ?_⟩)
      · exact fun c hc => h.inside c (by simp [hc])
      · exact fun c hc => by simp at hc
      · exact h.inside t (by simp)
  · rw [List.concat_eq_append, ← List.append_assoc, ← List.cons_append, ← List.append_assoc]
      at hsplit
    obtain ⟨rfl, heq⟩ := List.append_inj' hsplit rfl
    obtain rfl := List.singleton_inj.1 heq
    refine .inr (.inr ⟨behind', List.concat_eq_append .., ⟨front, rfl⟩, h.inside, fun c hc => ?_⟩)
    refine h.behind c ?_
    rw [List.concat_eq_append, List.head?_append_of_ne_nil _ fun hnil => by simp [hnil] at hc]
    exact hc

end Stretch

/-- The tokens behind the last one of the kind. -/
def behindLast (kind : TokenKind) (ts : List Token) : List Token :=
  ts.rtakeWhile fun t => t.kind != kind

/-- A stretch that has not ended is what stands behind its beginning. -/
theorem Stretch.behindLast_eq {ends : TokenKind → Bool} {kind : TokenKind} {ts inside : List Token}
    {o : Token} (h : Stretch ends ts o inside []) (ho : o.kind = kind) (hends : ends kind = true) :
    behindLast kind ts = inside := by
  obtain ⟨front, rfl⟩ := h.split
  have hinside : ∀ c ∈ inside.reverse, (c.kind != kind) = true := by
    intro c hc
    refine bne_iff_ne.2 fun heq => ?_
    have hnot := h.inside c (List.mem_reverse.1 hc)
    rw [heq, hends] at hnot
    simp at hnot
  have hreverse : (front ++ o :: (inside ++ [])).reverse = inside.reverse ++ o :: front.reverse := by
    simp
  rw [behindLast, List.rtakeWhile, hreverse, List.takeWhile_append_of_pos hinside,
    List.takeWhile_cons_of_neg (by simp [ho]), List.append_nil, List.reverse_reverse]

/-- Each token that is `among` these stands in a stretch of some node, which begins with the last
token of the kind in front of it. -/
def Housed (stretch : Nat → Token → List Token → List Token → Prop) (kind : TokenKind)
    (among : Token → Prop) (ts : List Token) : Prop :=
  ∀ front t rest, ts = front ++ t :: rest → among t →
    ∃ i o after behind, stretch i o (behindLast kind front ++ t :: after) behind

namespace Housed

variable {stretch stretch' : Nat → Token → List Token → List Token → Prop} {kind : TokenKind}
  {among : Token → Prop} {ts tail : List Token} {t : Token}

theorem nil : Housed stretch kind among [] := by
  intro front t rest h
  simp at h

/-- One more token. -/
theorem snoc (h : Housed stretch kind among ts)
    (grows : ∀ i o inside behind, stretch i o inside behind →
      ∃ more behind', stretch' i o (inside ++ more) behind')
    (new : among t → ∃ i o behind, stretch' i o (behindLast kind ts ++ [t]) behind) :
    Housed stretch' kind among (ts ++ [t]) := by
  intro front c rest hsplit hc
  rcases rest.eq_nil_or_concat with rfl | ⟨rest, t', rfl⟩
  · obtain ⟨rfl, heq⟩ := List.append_inj' hsplit rfl
    obtain rfl : t = c := by simpa using heq
    obtain ⟨i, o, behind, hnew⟩ := new hc
    exact ⟨i, o, [], behind, hnew⟩
  · have hold : ts = front ++ c :: rest := by
      rw [List.concat_eq_append, ← List.cons_append, ← List.append_assoc] at hsplit
      exact (List.append_inj' hsplit rfl).1
    obtain ⟨i, o, after, behind, hstretch⟩ := h front c rest hold hc
    obtain ⟨more, behind', hstretch'⟩ := grows i o _ behind hstretch
    rw [List.append_assoc] at hstretch'
    exact ⟨i, o, after ++ more, behind', hstretch'⟩

/-- Tokens that are not among these. -/
theorem append (h : Housed stretch kind among ts)
    (grows : ∀ i o inside behind, stretch i o inside behind →
      ∃ behind', stretch' i o inside behind')
    (hother : ∀ c ∈ tail, ¬ among c) : Housed stretch' kind among (ts ++ tail) := by
  intro front c rest hsplit hc
  rcases List.append_eq_append_iff.1 hsplit with ⟨more, rfl, htail⟩ | ⟨more, rfl, hrest⟩
  · exact absurd hc (hother c (by rw [htail]; simp))
  · rcases more with _ | ⟨c', more⟩
    · exact absurd hc (hother c (by simp at hrest; rw [← hrest]; simp))
    · obtain ⟨rfl, _⟩ := List.cons.inj hrest
      obtain ⟨i, o, after, behind, hstretch⟩ := h front c more rfl hc
      obtain ⟨behind', hstretch'⟩ := grows i o _ behind hstretch
      exact ⟨i, o, after, behind', hstretch'⟩

end Housed

/-! ## Attributes -/

/-- What a name in a start tag stands for, and where it begins. -/
def Token.attribute? (t : Token) : Option (NodeData × Nat) :=
  match t.kind with
  | .attributeName => some (.attr { name := t.lexeme }, t.span.start)
  | .directiveName => some (.directive (Directive.ofRaw t.lexeme), t.span.start)
  | _ => none

theorem Token.kind_of_attribute? {t : Token} (h : t.attribute? ≠ none) :
    t.kind = .attributeName ∨ t.kind = .directiveName := by
  unfold attribute? at h
  split at h
  · next hkind => exact .inl hkind
  · next hkind => exact .inr hkind
  · exact absurd rfl h

/-- The tokens that end a start tag. -/
def TokenKind.endsStartTag : TokenKind → Bool
  | startTagOpen | startTagClose | startTagSelfClose | eos => true
  | _ => false

/-- The name of a directive says nothing of a value. -/
theorem Directive.ofRaw_bare (raw : Text) :
    (NodeData.directive (ofRaw raw)).attribute? = some (.directive (ofRaw raw)) := by
  have hparts (name rest : Text) (hasArg isShorthand : Bool) :
      (NodeData.directive (ofParts name rest hasArg isShorthand)).attribute?
        = some (.directive (ofParts name rest hasArg isShorthand)) := rfl
  have hlong (body : Text) : (NodeData.directive (ofLongForm body)).attribute?
      = some (.directive (ofLongForm body)) := by
    unfold ofLongForm
    dsimp only
    split
    · exact hparts _ _ _ _
    · exact hparts _ _ _ _
  unfold ofRaw
  split
  · exact hlong _
  · split
    · exact hparts _ _ _ _
    · exact hlong _

/-- What a name stands for says nothing of a value, and begins where the name does. -/
theorem Token.bare_of_attribute? {t : Token} {a : NodeData × Nat} (h : t.attribute? = some a) :
    a.1.attribute? = some a.1 ∧ a.2 = t.span.start := by
  unfold attribute? at h
  split at h
  · obtain rfl := Option.some.inj h
    exact ⟨rfl, rfl⟩
  · obtain rfl := Option.some.inj h
    exact ⟨Directive.ofRaw_bare _, rfl⟩
  · simp at h

namespace Tree

variable {t t' : Tree} {i p edge edge' : Nat} {data : NodeData} {span : Span}
  {new : Nat → NodeKind → Nat → Prop}

/-- The attributes and directives of a node, without their values, and where each begins. -/
def attributes (t : Tree) (i : NodeId) : List (NodeData × Nat) :=
  (t.children i).filterMap fun c => (t.data c).attribute?.map fun a => (a, (t.span c).start)

theorem exists_element_of_kind (h : t.kind i = .element) :
    ∃ e, (t.data i).element? = some e := by
  cases hdata : t.data i <;> simp [kind, hdata, NodeData.kind] at h
  exact ⟨_, rfl⟩

theorem Shape.lt_of_mem_children {c : Nat} (h : t.Shape edge) (hc : c ∈ t.children i) :
    c < t.size :=
  lt_size_of_parent (h.mem_children hc)

/-- Where a tree grows, what is new comes behind the other children. -/
theorem Grows.exists_children (h : t.Grows new t') (hshape : t.Shape edge)
    (hshape' : t'.Shape edge') (i : Nat) :
    ∃ fresh, t'.children i = t.children i ++ fresh ∧ ∀ c ∈ fresh, t.size ≤ c ∧ c < t'.size := by
  obtain ⟨k, hk⟩ := Nat.exists_eq_add_of_le h.size_le
  by_cases hi : i < t.size
  · refine ⟨((List.range k).map (t.size + ·)).filter fun c => t'.parent c = some i, ?_,
      fun c hc => ?_⟩
    · rw [hshape'.listed i (Nat.lt_of_lt_of_le hi h.size_le), hk, List.range_add,
        List.filter_append, hshape.listed i hi]
      congr 1
      refine List.filter_congr fun c hc => ?_
      rw [h.parents c (List.mem_range.1 hc)]
    · obtain ⟨m, hm, rfl⟩ := List.mem_map.1 (List.mem_filter.1 hc).1
      exact ⟨Nat.le_add_right _ _, hk ▸ Nat.add_lt_add_left (List.mem_range.1 hm) _⟩
  · have hi := Nat.le_of_not_lt hi
    refine ⟨t'.children i, by rw [children_of_size_le hi, List.nil_append], fun c hc => ?_⟩
    have hlt := hshape'.parent_lt (hshape'.mem_children hc)
    exact ⟨by omega, hshape'.lt_of_mem_children hc⟩

/-- A new child may be one more attribute. -/
theorem attributes_sprout (hshape : t.Shape edge) (hp : p < t.size) (i : Nat) :
    (t.sprout data span p).attributes i = t.attributes i ++
      if i = p then (data.attribute?.map fun a => (a, span.start)).toList else [] := by
  have hold : (t.children i).filterMap (fun c => ((t.sprout data span p).data c).attribute?.map
      fun a => (a, ((t.sprout data span p).span c).start)) = t.attributes i := by
    refine List.filterMap_congr fun c hc => ?_
    have hne := Nat.ne_of_lt (hshape.lt_of_mem_children hc)
    rw [data_sprout hp, span_sprout hp, if_neg hne, if_neg hne]
  unfold attributes
  rw [children_sprout hp]
  split
  · next heq =>
    have hnone : t.children i = [] := children_of_size_le (Nat.le_of_eq heq.symm)
    rw [hnone, if_neg (by omega)]
    rfl
  · split
    · next heq =>
      subst heq
      rw [List.filterMap_append, hold, attributes]
      congr 1
      rw [List.filterMap_cons, data_sprout hp, span_sprout hp, if_pos rfl, if_pos rfl]
      cases data.attribute? <;> rfl
    · rw [List.append_nil]
      exact hold

/-- The start tag of the element: it begins with the bracket `o`, and its tokens are `tag`. -/
structure StartTag (t : Tree) (ts : List Token) (i : Nat) (o : Token) (tag behind : List Token) :
    Prop extends Stretch TokenKind.endsStartTag ts o tag behind where
  element : t.kind i = .element
  bracket : o.kind = .startTagOpen
  start : o.span.start = (t.span i).start
  attributes : t.attributes i = tag.filterMap Token.attribute?

end Tree

namespace Draft

variable {text : Text} {s : Scanner} {d d' d₁ : Draft} {t : Token} {e e' : Element}
  {ts : List Token} {attached noted : List NodeKind} {data : NodeData} {pos pos' i j : Nat}
  {outer : List (Nat × Element)}

/-- **What is no name of an attribute** leaves the attributes of all nodes as they are. -/
theorem Touches.attributes_eq (h : d.Touches attached noted d') (hattr : .attr ∉ attached)
    (hdirective : .directive ∉ attached) (hshape : d.tree.Shape d.current)
    (hshape' : d'.tree.Shape d'.current) (i : Nat) :
    d'.tree.attributes i = d.tree.attributes i := by
  obtain ⟨fresh, hchildren, hfresh⟩ := h.toGrows.exists_children hshape hshape' i
  unfold Tree.attributes
  rw [hchildren, List.filterMap_append]
  have hnone : fresh.filterMap (fun c => (d'.tree.data c).attribute?.map
      fun a => (a, (d'.tree.span c).start)) = [] := by
    refine List.filterMap_eq_nil_iff.2 fun c hc => ?_
    obtain ⟨_, _, hkind⟩ := h.fresh c (hfresh c hc).1 (hfresh c hc).2
    rw [NodeData.attribute?_eq_none, Option.map_none]
    rintro (heq | heq)
    · exact hattr (heq ▸ hkind)
    · exact hdirective (heq ▸ hkind)
  rw [hnone, List.append_nil]
  refine List.filterMap_congr fun c hc => ?_
  have hlt := hshape.lt_of_mem_children hc
  rw [h.names c hlt, h.starts c hlt]

/-- The rule of a name is about what it stands for. -/
theorem build_of_attribute {a : NodeData × Nat} (ha : t.attribute? = some a) :
    d.build t = d.attributeName t a.1 := by
  unfold Token.attribute? at ha
  split at ha
  · next hkind =>
    obtain rfl := Option.some.inj ha
    simp only [build, hkind]
  · next hkind =>
    obtain rfl := Option.some.inj ha
    simp only [build, hkind]
  · simp at ha

/-- But for reports the rule opens a node. -/
theorem attributeName_same (d : Draft) (t : Token) (data : NodeData) :
    (d.attributeName t data).tree = (d.leaveAttribute.openNode data t.span).tree ∧
      (d.attributeName t data).current = (d.leaveAttribute.openNode data t.span).current := by
  unfold Draft.attributeName
  dsimp only
  split <;> exact ⟨rfl, rfl⟩

/-- A name in a start tag is attached to the node to which the attributes lead back. -/
theorem attributes_named (hshape : d.tree.Shape d.current) (i : Nat) :
    (d.attributeName t data).tree.attributes i = d.tree.attributes i ++
      if i = d.leaveAttribute.current then
        (data.attribute?.map fun a => (a, t.span.start)).toList else [] := by
  have hleft := shape_leaveAttribute hshape
  -- the new node is attached first, and then the element grows to cover it
  let sprouted : Draft :=
    { d.leaveAttribute with
      tree := d.leaveAttribute.tree.sprout data t.span d.leaveAttribute.current }
  have hsprouted : sprouted.tree.Shape sprouted.current := hleft.sprout data t.span
  have hleave : d.Touches [] [] d.leaveAttribute := touches_leaveAttribute d
  have hgrown : sprouted.Touches [] [] (sprouted.extend t.span.stop) := touches_extend _ _
  calc (d.attributeName t data).tree.attributes i
      = (sprouted.extend t.span.stop).tree.attributes i := by
        rw [(d.attributeName_same t data).1]
        rfl
    _ = sprouted.tree.attributes i :=
        hgrown.attributes_eq (by simp) (by simp) hsprouted (shape_extend hsprouted _) i
    _ = d.leaveAttribute.tree.attributes i ++
          if i = d.leaveAttribute.current then
            (data.attribute?.map fun a => (a, t.span.start)).toList else [] :=
        Tree.attributes_sprout hleft hleft.edge_lt i
    _ = _ := by rw [hleave.attributes_eq (by simp) (by simp) hshape hleft i]

/-! ## Which start tags have ended -/

/-- In front of a bracket that ends a start tag all others have ended. -/
theorem AtBracket.begun_of_ne (hb : d.AtBracket text ts pos e) (h : d.Landmarked ts pos)
    (he : (d.tree.data i).element? = some e') (hne : i ≠ d.current) : e'.startTagEnd ≠ none := by
  by_cases hunder : d.tree.Under d.current i
  · exact hb.begun i e' hunder he hne
  · obtain ⟨st, hst, _⟩ := h.closed i e' ⟨Tree.lt_size_of_element he, hunder⟩ he
    simp [hst]

/-- **Behind the bracket that ends a start tag** all start tags have ended. -/
theorem Effect.allBegun (heffect : Effect text ts pos pos' t d d') (h : d.Landmarked ts pos)
    (hshape : d.tree.Shape d.current)
    (hkind : t.kind = .startTagClose ∨ t.kind = .startTagSelfClose) : d'.AllBegun := by
  cases heffect with
  | adds kind _ =>
    rcases hkind with hkind | hkind <;> simp [hkind, TokenKind.retains] at kind
  | ends kind _ _ _ _ _ => rcases hkind with hkind | hkind <;> simp [hkind, TokenKind.ended?] at kind
  | names kind _ _ => simp [kind] at hkind
  | @begins d₁ e kind _ before hb _ hm =>
    intro i e' he
    have hi : i < d₁.tree.size := hm.grows.size_eq ▸ Tree.lt_size_of_element he
    by_cases hcurrent : i = d₁.current
    · rw [hcurrent, hm.marked] at he
      exact Option.some.inj he ▸ by simp
    · exact hb.begun_of_ne (h.keeps hshape before) ((hm.others i hi hcurrent).symm.trans he)
        hcurrent
  | @completes d₁ d₂ e e₁ _ before hb how hs after =>
    refine AllBegun.retains (fun i e' he => ?_) after
    rw [hs.data_eq] at he
    split at he
    · obtain rfl := Option.some.inj he
      rcases how with ⟨_, _, rfl⟩ | ⟨_, rfl⟩ <;> simp
    · next hcurrent => exact hb.begun_of_ne (h.keeps hshape before) he hcurrent
  | closes kind _ _ _ _ _ _ _ _ _ _ _ _ _ => simp [kind] at hkind

/-- **Any other token** ends no start tag. -/
theorem Effect.startTagEnd_iff (heffect : Effect text ts pos pos' t d d') (h : d.Landmarked ts pos)
    (hkind : ¬ (t.kind = .startTagClose ∨ t.kind = .startTagSelfClose))
    (he : (d.tree.data i).element? = some e) (he' : (d'.tree.data i).element? = some e') :
    e'.startTagEnd = none ↔ e.startTagEnd = none := by
  have hi := Tree.lt_size_of_element he
  have hsame (hdata : (d'.tree.data i).element? = (d.tree.data i).element?) :
      e'.startTagEnd = none ↔ e.startTagEnd = none := by
    rw [Option.some.inj (he'.symm.trans (hdata.trans he))]
  cases heffect with
  | adds _ hr => exact hsame (hr.elements i hi)
  | @ends data d₁ kind same _ _ hs after =>
    refine hsame ((after.elements i (hs.size ▸ hi)).trans ?_)
    rw [hs.data_eq]
    split
    · next heq =>
      have hother : d.currentKind ≠ .element := by
        intro helement
        rw [helement] at kind
        cases hk : t.kind <;> simp [hk, TokenKind.ended?] at kind
      rw [NodeData.element?_eq_none (same ▸ hother), heq]
      exact (NodeData.element?_eq_none hother).symm
    · rfl
  | names kind hdata hm =>
    by_cases hcurrent : i = d.current
    · subst hcurrent
      rw [show (d.tree.data d.current) = _ from hdata] at he
      rw [hm.marked] at he'
      rw [← Option.some.inj he, ← Option.some.inj he']
    · exact hsame (hm.others i hi hcurrent)
  | begins kind _ _ _ _ _ => exact absurd (.inl kind) hkind
  | completes _ _ _ how _ _ =>
    rcases how with ⟨kind, _⟩ | ⟨kind, _⟩
    · exact absurd (.inl kind) hkind
    · exact absurd (.inr kind) hkind
  | @closes d₁ d₂ d₃ below e₁ _ _ _ _ _ _ _ begun _ before _ abandoned hdata _ hs after =>
    have hall : d.AllBegun := h.allBegun fun i e hi he => begun.of_under hi he
    have hall₂ : d₂.AllBegun := abandoned.keeps (P := AllBegun) (hall.retains before)
      fun _ _ step h => h.abandons step
    have hbegun := hall₂ d₂.current e₁ (NodeData.element?_eq_some.2 hdata)
    have hall₃ : d₃.AllBegun := hall₂.shuts hs.toShuts fun e' he => Option.some.inj he ▸ hbegun
    exact iff_of_false ((hall₃.retains after) i e' he') (hall i e he)

/-- While a start tag is read no other start tag is. -/
theorem AmidStartTag.eq_of_unbegun (hamid : d.AmidStartTag ts pos i e outer)
    (h : d.Landmarked ts pos') (hshape : d.tree.Shape d.current)
    (he : (d.tree.data j).element? = some e') (hnone : e'.startTagEnd = none) : j = i := by
  by_cases hunder : d.tree.Under d.current j
  · rcases List.mem_cons.1 (hamid.opened.mem_of_under hshape.root hunder he) with heq | houter
    · exact (Prod.mk.inj heq).1
    · exact absurd hnone (hamid.begun _ houter)
  · obtain ⟨st, hst, _⟩ := h.closed j e' ⟨Tree.lt_size_of_element he, hunder⟩ he
    simp [hst] at hnone

/-! ## The names in a start tag -/

/-- The start tag has been read up to a bracket that ends it, or is still read. -/
structure TagRead (d : Draft) (ts : List Token) (i : Nat) (o : Token) (tag after : List Token) :
    Prop extends Tree.StartTag d.tree ts i o tag after where
  ended : ∀ e, (d.tree.data i).element? = some e → (after = [] ↔ e.startTagEnd = none)

/-- Every element has a start tag, and the attributes that are named in it. -/
def Listed (d : Draft) (ts : List Token) : Prop :=
  ∀ i, d.tree.kind i = .element → ∃ o tag behind, d.TagRead ts i o tag behind

/-- Every name stands in the start tag of an element. -/
def NamesHoused (d : Draft) (ts : List Token) : Prop :=
  Housed (d.TagRead ts) .startTagOpen (fun t => t.attribute? ≠ none) ts

theorem listed_start (dialect : Dialect) (text : Text) :
    (Draft.start dialect text).Listed [] ∧ (Draft.start dialect text).NamesHoused [] := by
  refine ⟨fun i hkind => ?_, .nil⟩
  have hdata : (Draft.start dialect text).tree.data i = .root := by cases i <;> rfl
  rw [Tree.kind, hdata] at hkind
  simp [NodeData.kind] at hkind

/-- The attributes of the nodes after one more token. -/
theorem Abreast.attributes_scan (h : d.Abreast text s ts) (hrest : s.rest ≠ []) (i : Nat) :
    (d.takeToken s.scan.1).tree.attributes i = d.tree.attributes i ++
      if i = d.leaveAttribute.current then s.scan.1.attribute?.toList else [] := by
  have htree := (RawElement.takeToken_same d s.scan.1).1
  cases hname : s.scan.1.attribute? with
  | some a =>
    obtain ⟨hbare, hstart⟩ := Token.bare_of_attribute? hname
    rw [htree, build_of_attribute hname, attributes_named h.shape, hbare, ← hstart]
    rfl
  | none =>
    have hplain : .attr ∉ s.scan.1.kind.attaches ∧ .directive ∉ s.scan.1.kind.attaches := by
      cases hkind : s.scan.1.kind <;> simp_all [TokenKind.attaches, Token.attribute?]
    rw [Option.toList_none, ite_self, List.append_nil]
    exact (touches_takeToken h.shape).attributes_eq hplain.1 hplain.2 h.shape (h.scan hrest).shape i

/-- A name belongs to the element whose start tag has not ended. -/
theorem Abreast.current_iff_unbegun (h : d.Abreast text s ts) (hrest : s.rest ≠ [])
    (hmarks : d.Landmarked ts (d.reach s)) (hname : s.scan.1.attribute? ≠ none)
    (he : (d.tree.data i).element? = some e) :
    i = d.leaveAttribute.current ↔ e.startTagEnd = none := by
  have hkind := Token.kind_of_attribute? hname
  have hexpects := h.attuned.expects
  have htag : d.InStartTag := by
    rcases hkind with hkind | hkind <;> rwa [hkind] at hexpects
  obtain ⟨q, e₀, outer, hamid⟩ := h.amid hrest (.inr (.inr hkind))
  obtain ⟨rfl, _, _⟩ := hamid.leaveAttribute h.shape.root htag
  constructor
  · rintro rfl
    have he₀ := hamid.opened.element_of_mem List.mem_cons_self
    rw [Option.some.inj (he.symm.trans he₀)]
    exact hamid.unbegun
  · exact hamid.eq_of_unbegun hmarks h.shape he

/-- The token that ends a start tag is a bracket, and no name. -/
theorem endsStartTag_cases (hrest : s.rest ≠ []) (hends : s.scan.1.kind.endsStartTag = true) :
    s.scan.1.attribute? = none ∧ (s.scan.1.kind = .startTagOpen ∨ s.scan.1.kind = .startTagClose ∨
      s.scan.1.kind = .startTagSelfClose) := by
  have heos : s.scan.1.kind ≠ .eos := fun heos => hrest ((s.scan_kind_eq_eos_iff).1 heos)
  unfold Token.attribute?
  cases hkind : s.scan.1.kind <;> simp_all [TokenKind.endsStartTag]

/-- A token that is no name belongs to no list of attributes. -/
theorem Abreast.attributes_of_other (h : d.Abreast text s ts) (hrest : s.rest ≠ [])
    (hother : s.scan.1.attribute? = none) (i : Nat) :
    (d.takeToken s.scan.1).tree.attributes i = d.tree.attributes i := by
  rw [h.attributes_scan hrest, hother, Option.toList_none, ite_self, List.append_nil]

section OneToken

variable {o : Token} {tag behind : List Token}

/-- A start tag is read on. -/
theorem Abreast.tagRead_extend (h : d.Abreast text s ts) (hrest : s.rest ≠ [])
    (hmarks : d.Landmarked ts (d.reach s)) (htag : d.TagRead ts i o tag [])
    (hends : s.scan.1.kind.endsStartTag = false) :
    (d.takeToken s.scan.1).TagRead (ts ++ [s.scan.1]) i o (tag ++ [s.scan.1]) [] := by
  have htouches := touches_takeToken (t := s.scan.1) h.shape
  obtain ⟨e, he⟩ := Tree.exists_element_of_kind htag.element
  have hi := Tree.lt_size_of_element he
  have hnone := (htag.ended e he).1 rfl
  refine ⟨⟨htag.extend hends, (htouches.kinds i hi).trans htag.element, htag.bracket,
    htag.start.trans (htouches.starts i hi).symm, ?_⟩, fun e' he' => iff_of_true rfl ?_⟩
  · rw [List.filterMap_append, ← htag.attributes]
    cases hname : s.scan.1.attribute? with
    | none => simp [h.attributes_of_other hrest hname, hname]
    | some a =>
      have hcurrent := (h.current_iff_unbegun hrest hmarks (by simp [hname]) he).2 hnone
      rw [h.attributes_scan hrest, if_pos hcurrent]
      simp [hname]
  · have hnot : ¬ (s.scan.1.kind = .startTagClose ∨ s.scan.1.kind = .startTagSelfClose) := by
      rintro (hkind | hkind) <;> simp [hkind, TokenKind.endsStartTag] at hends
    exact ((h.effect hrest).startTagEnd_iff hmarks hnot he he').2 hnone

/-- A start tag ends. -/
theorem Abreast.tagRead_stop (h : d.Abreast text s ts) (hrest : s.rest ≠ [])
    (hmarks : d.Landmarked ts (d.reach s)) (htag : d.TagRead ts i o tag [])
    (hends : s.scan.1.kind.endsStartTag = true) :
    (d.takeToken s.scan.1).TagRead (ts ++ [s.scan.1]) i o tag [s.scan.1] := by
  have htouches := touches_takeToken (t := s.scan.1) h.shape
  obtain ⟨e, he⟩ := Tree.exists_element_of_kind htag.element
  have hi := Tree.lt_size_of_element he
  have hnone := (htag.ended e he).1 rfl
  obtain ⟨hother, hkind⟩ := endsStartTag_cases hrest hends
  have hlast : s.scan.1.kind = .startTagClose ∨ s.scan.1.kind = .startTagSelfClose := by
    refine hkind.resolve_left fun hopen => ?_
    -- no start tag begins within another
    have hbegun := hmarks.allBegun fun i e hi he => (h.begun hrest (.inr hopen)).of_under hi he
    exact hbegun i e he hnone
  refine ⟨⟨htag.stop hends, (htouches.kinds i hi).trans htag.element, htag.bracket,
    htag.start.trans (htouches.starts i hi).symm, ?_⟩, fun e' he' => iff_of_false (by simp) ?_⟩
  · rw [h.attributes_of_other hrest hother, htag.attributes]
  · exact (h.effect hrest).allBegun hmarks h.shape hlast i e' he'

/-- A start tag that has ended stays as it is. -/
theorem Abreast.tagRead_append (h : d.Abreast text s ts) (hrest : s.rest ≠ [])
    (hmarks : d.Landmarked ts (d.reach s)) (htag : d.TagRead ts i o tag behind)
    (hne : behind ≠ []) :
    (d.takeToken s.scan.1).TagRead (ts ++ [s.scan.1]) i o tag (behind ++ [s.scan.1]) := by
  have htouches := touches_takeToken (t := s.scan.1) h.shape
  obtain ⟨e, he⟩ := Tree.exists_element_of_kind htag.element
  have hi := Tree.lt_size_of_element he
  have hbegun : e.startTagEnd ≠ none := fun hnone => hne ((htag.ended e he).2 hnone)
  refine ⟨⟨htag.append hne _, (htouches.kinds i hi).trans htag.element, htag.bracket,
    htag.start.trans (htouches.starts i hi).symm, ?_⟩, fun e' he' => iff_of_false (by simp) ?_⟩
  · rw [← htag.attributes]
    cases hname : s.scan.1.attribute? with
    | none => exact h.attributes_of_other hrest hname i
    | some a =>
      have hother : i ≠ d.leaveAttribute.current := fun heq =>
        hbegun ((h.current_iff_unbegun hrest hmarks (by simp [hname]) he).1 heq)
      rw [h.attributes_scan hrest, if_neg hother, List.append_nil]
  · by_cases hlast : s.scan.1.kind = .startTagClose ∨ s.scan.1.kind = .startTagSelfClose
    · exact (h.effect hrest).allBegun hmarks h.shape hlast i e' he'
    · exact fun hnone => hbegun (((h.effect hrest).startTagEnd_iff hmarks hlast he he').1 hnone)

/-- **One token for an element.** It belongs to the start tag, or stands behind it. -/
theorem Abreast.tagRead_scan (h : d.Abreast text s ts) (hrest : s.rest ≠ [])
    (hmarks : d.Landmarked ts (d.reach s)) (htag : d.TagRead ts i o tag behind) :
    ∃ more behind', (d.takeToken s.scan.1).TagRead (ts ++ [s.scan.1]) i o (tag ++ more) behind' := by
  by_cases hne : behind = []
  · subst hne
    cases hends : s.scan.1.kind.endsStartTag with
    | false => exact ⟨_, [], h.tagRead_extend hrest hmarks htag hends⟩
    | true => exact ⟨[], _, (List.append_nil tag).symm ▸ h.tagRead_stop hrest hmarks htag hends⟩
  · exact ⟨[], _, (List.append_nil tag).symm ▸ h.tagRead_append hrest hmarks htag hne⟩

/-- **A new element** begins with the bracket that opens it. -/
theorem Abreast.tagRead_new (h : d.Abreast text s ts) (hrest : s.rest ≠ [])
    (hnew : d.tree.size ≤ i) (helement : (d.takeToken s.scan.1).tree.kind i = .element) :
    (d.takeToken s.scan.1).TagRead (ts ++ [s.scan.1]) i s.scan.1 [] [] := by
  have hi : i < (d.takeToken s.scan.1).tree.size :=
    Tree.lt_size_of_structural (by rw [helement]; rfl)
  have hkind : s.scan.1.kind = .startTagOpen := by
    have hattached := kind_of_new h.shape hnew hi
    rw [helement] at hattached
    cases hkind : s.scan.1.kind <;> simp [hkind, TokenKind.attaches] at hattached
    rfl
  have hretains := retains_takeToken (t := s.scan.1) h.shape (by rw [hkind]; rfl)
  obtain ⟨_, _, hfresh⟩ := hretains.grows.fresh i hnew hi
  refine ⟨⟨.start _ ts _, helement, hkind, hfresh.start.symm, ?_⟩, fun e' he' => ?_⟩
  · rw [h.attributes_of_other hrest (by simp [Token.attribute?, hkind]), Tree.attributes,
      Tree.children_of_size_le hnew]
    rfl
  · exact iff_of_true rfl (by rw [hretains.begins i e' hnew he'])

/-- The start tag in which a name stands. -/
theorem Abreast.tagRead_of_name (h : d.Abreast text s ts) (hrest : s.rest ≠ [])
    (hmarks : d.Landmarked ts (d.reach s)) (hlisted : d.Listed ts)
    (hname : s.scan.1.attribute? ≠ none) :
    ∃ o tag, d.TagRead ts d.leaveAttribute.current o tag [] := by
  obtain ⟨i, e, outer, hamid⟩ := h.amid hrest (.inr (.inr (Token.kind_of_attribute? hname)))
  have he := hamid.opened.element_of_mem List.mem_cons_self
  obtain rfl := (h.current_iff_unbegun hrest hmarks hname he).2 hamid.unbegun
  obtain ⟨o, tag, behind, htag⟩ := hlisted _ (Tree.kind_of_data (NodeData.element?_eq_some.1 he))
  obtain rfl := (htag.ended e he).2 hamid.unbegun
  exact ⟨o, tag, htag⟩

end OneToken

/-- **One token.** It belongs to the start tag that is read, or ends it. To other elements it is no
matter. -/
theorem Abreast.listed (h : d.Abreast text s ts) (hrest : s.rest ≠ [])
    (hmarks : d.Landmarked ts (d.reach s)) (hlisted : d.Listed ts) :
    (d.takeToken s.scan.1).Listed (ts ++ [s.scan.1]) := by
  intro i hkind
  by_cases hi : i < d.tree.size
  · rw [(touches_takeToken (t := s.scan.1) h.shape).kinds i hi] at hkind
    obtain ⟨o, tag, behind, htag⟩ := hlisted i hkind
    obtain ⟨more, behind', htag'⟩ := h.tagRead_scan hrest hmarks htag
    exact ⟨o, _, behind', htag'⟩
  · exact ⟨_, [], [], h.tagRead_new hrest (Nat.le_of_not_lt hi) hkind⟩

/-- A name stands in the start tag that is read. -/
theorem Abreast.namesHoused (h : d.Abreast text s ts) (hrest : s.rest ≠ [])
    (hmarks : d.Landmarked ts (d.reach s)) (hlisted : d.Listed ts) (hhoused : d.NamesHoused ts) :
    (d.takeToken s.scan.1).NamesHoused (ts ++ [s.scan.1]) := by
  refine hhoused.snoc (fun i o tag behind htag => h.tagRead_scan hrest hmarks htag) fun hname => ?_
  obtain ⟨o, tag, htag⟩ := h.tagRead_of_name hrest hmarks hlisted hname
  have hgoes : s.scan.1.kind.endsStartTag = false := by
    rcases Token.kind_of_attribute? hname with hkind | hkind <;> rw [hkind] <;> rfl
  rw [htag.behindLast_eq htag.bracket rfl]
  exact ⟨_, o, [], h.tagRead_extend hrest hmarks htag hgoes⟩

section Finish

variable {o : Token} {tag behind tail : List Token}

/-- The end of the text ends the start tags. -/
theorem TagRead.finish (htag : d.TagRead ts i o tag behind) (hshape : d.tree.Shape d.current)
    (hshape' : d.finish.tree.Shape d.finish.current) (htail : ∀ c ∈ tail, c.kind = .eos) :
    d.finish.tree.StartTag (ts ++ tail) i o tag (behind ++ tail) := by
  have htouches := touches_finish d
  have hi : i < d.tree.size := Tree.lt_size_of_structural (by rw [htag.element]; rfl)
  refine ⟨htag.toStretch.finish rfl htail, (htouches.kinds i hi).trans htag.element, htag.bracket,
    htag.start.trans (htouches.starts i hi).symm, ?_⟩
  rw [htouches.attributes_eq (by simp) (by simp) hshape hshape', htag.attributes]

theorem Listed.finish (hlisted : d.Listed ts) (hshape : d.tree.Shape d.current)
    (hshape' : d.finish.tree.Shape d.finish.current) (htail : ∀ c ∈ tail, c.kind = .eos)
    (hkind : d.finish.tree.kind i = .element) :
    ∃ o tag behind, d.finish.tree.StartTag (ts ++ tail) i o tag behind := by
  have htouches := touches_finish d
  have hi : i < d.tree.size := by
    rw [← htouches.size_eq]
    exact Tree.lt_size_of_structural (by rw [hkind]; rfl)
  obtain ⟨o, tag, behind, htag⟩ := hlisted i ((htouches.kinds i hi).symm.trans hkind)
  exact ⟨o, tag, _, htag.finish hshape hshape' htail⟩

theorem NamesHoused.finish (hhoused : d.NamesHoused ts) (hshape : d.tree.Shape d.current)
    (hshape' : d.finish.tree.Shape d.finish.current) (htail : ∀ c ∈ tail, c.kind = .eos) :
    Housed (d.finish.tree.StartTag (ts ++ tail)) .startTagOpen (fun t => t.attribute? ≠ none)
      (ts ++ tail) := by
  refine hhoused.append (fun i o tag behind htag => ⟨_, htag.finish hshape hshape' htail⟩)
    fun c hc hname => hname ?_
  rw [Token.attribute?, htail c hc]

end Finish

end Draft

end HybridMarkup
