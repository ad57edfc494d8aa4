/-
What a token does to the open nodes.

Seen from the nodes that have to be closed there are few things that a token can do
(`Draft.Effect`): it only adds to the draft; it ends a comment, a block or a mustache; it gives an
element its name, or ends its start tag; or it ends an end tag, which closes the elements below the
one it belongs to, and that one. So whatever is to hold after each token is proved in one step for
each of these, and the end of the text is a run of closing steps.

An end tag closes elements where it begins, several tokens before the one that closes them. In
between nothing happens to the tree. What is said of a draft is therefore said for a place
(`Draft.reach`): where the scanner is, but within an end tag where that begins.
-/
import HybridMarkup.Proofs.ClosingDown
import HybridMarkup.Proofs.RawBodies

set_option autoImplicit false

namespace HybridMarkup

open Text

namespace TokenKind

/-- What has to be closed, and is no element, ends with the token. -/
def ended? : TokenKind → Option NodeKind
  | commentEnd => some .comment
  | codeBlockEnd => some .codeBlock
  | mustacheEnd => some .mustache
  | _ => none

/-- The tokens that prose may have. -/
def inProse : TokenKind → Bool
  | startTagOpen | startTag | startTagClose | startTagSelfClose | endTagOpen | endTag | endTagClose
  | attributeName | directiveName | attributeDelimiter | attributeMark | attributeValue
  | mustacheStart | mustacheContent | mustacheEnd | rawText => false
  | _ => true

end TokenKind

/-! ## End tags -/

/-- The tokens of an end tag up to its last bracket: the first bracket, which begins at `start`, the
name, and nothing but space and strays between them and behind. -/
def IsEndTag (ts : List Token) (start : Nat) (name : Text) : Prop :=
  ∃ o between n behind, ts = o :: between ++ n :: behind ∧ o.kind = .endTagOpen ∧
    n.kind = .endTag ∧ (∀ x ∈ between ++ behind, x.kind = .whitespace ∨ x.kind = .unknown) ∧
    o.span.start = start ∧ n.lexeme = name

/-- Space and strays may follow the name. -/
theorem IsEndTag.snoc {ts : List Token} {start : Nat} {name : Text} {t : Token}
    (h : IsEndTag ts start name) (hkind : t.kind = .whitespace ∨ t.kind = .unknown) :
    IsEndTag (ts ++ [t]) start name := by
  obtain ⟨o, between, n, behind, rfl, hopen, hnamed, hidle, hstart, hlexeme⟩ := h
  refine ⟨o, between, n, behind ++ [t], by simp, hopen, hnamed, fun x hx => ?_, hstart, hlexeme⟩
  rw [← List.append_assoc] at hx
  rcases List.mem_append.1 hx with hx | hx
  · exact hidle x hx
  · exact List.mem_singleton.1 hx ▸ hkind

namespace Memory

variable {dialect : Dialect} {before : Option Char} {m m' : Memory} {u rest : Text}
  {kind : TokenKind} {error : Option LexError}

/-- A turn does not leave an end tag. -/
theorem Turns.inEndTag_of (h : m.Turns u m') (hin : m.InEndTag) : m'.InEndTag := by
  cases h with
  | noBody state => rcases state with state | state <;> simp [InEndTag, state] at hin
  | noValue state | noQuote state | valueEnds state _ | noStartName state =>
    simp [InEndTag, state] at hin
  | noEndName _ => exact .inr rfl

/-- In an end tag there are its name, its last bracket, and what means nothing. -/
theorem Yields.kind_in_endTag (h : m.Yields dialect before u kind error rest m')
    (hin : m.InEndTag) :
    (kind = .whitespace ∨ kind = .unknown) ∨ kind = .endTag ∨ kind = .endTagClose := by
  cases h with
  | rawText e state _ _ => cases e <;> simp [InEndTag, state] at hin
  | _ => rcases hin with hin | hin <;> simp_all

/-- What names an element or its attributes, and what ends a start tag, stands in a start tag. -/
theorem Yields.in_startTag (h : m.Yields dialect before u kind error rest m')
    (hkind : kind = .startTagClose ∨ kind = .startTagSelfClose ∨ kind = .attributeName ∨
      kind = .directiveName) : m.inStartTag = true := by
  cases h <;> simp_all [inStartTag]

/-- Where an end tag ends, or a start tag begins, there is no start tag. -/
theorem Yields.not_in_startTag (h : m.Yields dialect before u kind error rest m')
    (hkind : kind = .endTagClose ∨ kind = .startTagOpen) : m.inStartTag = false := by
  cases h <;> simp_all [inStartTag]

end Memory

theorem ProseArtifacts.Synced.inProse {dialect : Dialect} {text u rest : Text} {m m' : Memory}
    {pos : Nat} {deal : Deal} {d : Draft} {before : Option Char} {kind : TokenKind}
    {error : Option LexError} (prose : dialect ≠ .template)
    (h : ProseArtifacts.Synced dialect text m u pos deal d)
    (hy : m.Yields dialect before u kind error rest m') : kind.inProse = true := by
  cases hy with
  | endTagOpen _ template _ | startTagOpen _ template _ | contentMustache _ template _
  | templateText _ template _ => exact absurd template prose
  | rawText e state _ _ => cases e <;> simp only [ProseArtifacts.Synced, state] at h
  | endTag state _ | endTagClose state _ | endTagBroken state _ | startTag state _
  | selfClose state _ | startTagClose state _ | startTagBroken state _ | attributeName state _ _ _
  | directiveName state _ _ _ | attributeDelimiter state _ | openingMark state _ _
  | unquotedValue state _ _ _ _ _ | closingMark state _ _ | directiveValue state _ _ _
  | valueMustache state _ _ _ | quotedValue state _ _ _ | mustacheEnd state _
  | mustacheContent state _ =>
    simp only [ProseArtifacts.Synced, state] at h
  | _ => rfl

/-- Everything on the way to the root is of one of the kinds. -/
theorem Tree.Chain.kind_mem_of_under {t : Tree} {i j : Nat} {path : List NodeKind}
    (h : t.Chain j path) (hroot : t.parent Tree.root = none) (hunder : t.Under j i) :
    t.kind i ∈ path := by
  induction h with
  | root kind =>
    rw [hunder.eq_of_orphan hroot, kind]
    exact List.mem_singleton_self _
  | under kind _ parent _ ih =>
    rcases hunder.cases_parent parent with rfl | hunder
    · exact kind ▸ List.mem_cons_self
    · exact List.mem_cons_of_mem _ (ih hunder)

/-- Prose has no elements. -/
theorem ProseArtifacts.Synced.kind_ne_element {dialect : Dialect} {text rest : Text} {m : Memory}
    {pos i : Nat} {deal : Deal} {d : Draft}
    (h : ProseArtifacts.Synced dialect text m rest pos deal d)
    (hunder : d.tree.Under d.current i) : d.tree.kind i ≠ .element := by
  obtain ⟨path, hpath, hstands⟩ : ∃ path, NodeKind.element ∉ path ∧
      d.Stands ProseArtifacts.pieces dialect text pos path deal.pieces := by
    unfold ProseArtifacts.Synced at h
    split at h
    · exact ⟨_, by simp, h⟩
    · exact ⟨_, by simp, h⟩
    · rcases h with ⟨_, h⟩ | ⟨_, h⟩
      · exact ⟨_, by simp, h⟩
      · exact ⟨_, by simp, h⟩
    · exact ⟨_, by simp, h.1⟩
    · exact ⟨_, by simp, h.1⟩
    · exact h.elim
  exact fun heq => hpath (heq ▸ hstands.chain.kind_mem_of_under hstands.shape.root hunder)

/-- But for a missing bracket and a value that stands still a token has characters. -/
theorem Scanner.offset_lt {s : Scanner} (hrest : s.rest ≠ [])
    (hkind : s.scan.1.kind ≠ .startTagClose ∧ s.scan.1.kind ≠ .endTagClose ∧
      s.scan.1.kind ≠ .attributeValue) : s.offset < s.scan.2.offset := by
  rw [s.scan_span.2]
  refine Nat.lt_add_of_pos_right (size_pos fun hnil => ?_)
  rcases Scanner.lexeme_eq_nil_cases hnil with hend | ⟨hmiss, _⟩ | hstalls
  · exact hrest hend
  · rcases hmiss with hmiss | hmiss
    · exact hkind.1 hmiss
    · exact hkind.2.1 hmiss
  · exact hkind.2.2 ((Scanner.stalls_iff s).2 hstalls).1

namespace Tree

variable {t : Tree} {i j : Nat} {es : List (Nat × Element)} {e : Element}

/-- An element on the way to the root is one of those that are open. -/
theorem Opened.mem_of_under (h : t.Opened j es) (hroot : t.parent Tree.root = none)
    (hunder : t.Under j i) (hdata : (t.data i).element? = some e) : (i, e) ∈ es := by
  induction h with
  | root data =>
    rw [hunder.eq_of_orphan hroot] at hdata
    simp [hdata] at data
  | element data parent _ ih =>
    rcases hunder.cases_parent parent with rfl | hunder
    · rw [hdata, Option.some.injEq] at data
      exact data ▸ List.mem_cons_self
    · exact List.mem_cons_of_mem _ (ih hunder)
  | other data parent _ ih =>
    rcases hunder.cases_parent parent with rfl | hunder
    · simp [hdata] at data
    · exact ih hunder

/-- Only the node itself stands under it, unless it has a child. -/
theorem Under.exists_child (h : t.Under j i) (hne : i ≠ j) : ∃ c : Nat, t.parent c = some i := by
  rcases Relation.ReflTransGen.cases_tail h with rfl | ⟨c, _, hc⟩
  · exact absurd rfl hne
  · exact ⟨c, hc⟩

end Tree

/-- In the content of elements, and in end tags, everything open is an element. -/
theorem TemplateArtifact.Nested.under {t : Tree} {i j : Nat} {path : List NodeKind}
    (h : Nested path) (hchain : t.Chain j path) (hroot : t.parent Tree.root = none)
    (hunder : t.Under j i) : t.kind i = .element ∨ i = Tree.root := by
  induction h generalizing j with
  | root =>
    rw [hchain.eq_root] at hunder
    exact .inr (hunder.eq_of_orphan hroot)
  | element _ ih =>
    cases hchain with
    | under kind _ parent above =>
      rcases hunder.cases_parent parent with rfl | hunder
      · exact .inl kind
      · exact ih above hunder

namespace Draft

variable {text : Text} {d d' d₁ d₂ : Draft} {t : Token} {e e' : Element} {ts : List Token}
  {pos pos' i j p : Nat}

/-- How far the end tag is read that the last of the tokens belong to. -/
inductive InEndTag (ts : List Token) (m : Memory) (d : Draft) : Prop where
  /-- There is no name yet, or none at all. -/
  | bracket {o : Token} {between : List Token} (tokens : o :: between <:+ ts)
      (kind : o.kind = .endTagOpen)
      (idle : ∀ x ∈ between, x.kind = .whitespace ∨ x.kind = .unknown)
      (start : o.span.start = d.endTagStart) (name : d.endTagName = none)
  | named {tag : List Token} {name : Text} (state : m.state = .endTag) (tokens : tag <:+ ts)
      (is : IsEndTag tag d.endTagStart name) (name : d.endTagName = some name)

/-! ## What happens to elements -/

/-- The open node, which is an element, is `e'` now. No other element has changed, and what has to
be closed is as it was. -/
structure Marks (e' : Element) (d d' : Draft) : Prop extends Holds Tree.NoNode d d' where
  marked : d'.tree.data d.current = .element e'
  others : ∀ j, j < d.tree.size → j ≠ d.current →
    (d'.tree.data j).element? = (d.tree.data j).element?

theorem marks_setCurrent (hdata : d.currentData = .element e) (hshape : d.tree.Shape d.current)
    (e' : Element) : d.Marks e' (d.setCurrent (.element e')) := by
  have hset := Tree.data_setData d.tree d.current (.element e')
  refine ⟨holds_of_grows (Tree.grows_setData ?_) (Tree.size_setData ..) rfl
    (spares_setCurrent d _) rfl, ?_, fun j _ hj => ?_⟩
  · exact (Tree.kind_of_data hdata).symm
  · exact (hset _).trans (if_pos ⟨rfl, hshape.edge_lt⟩)
  · exact congrArg NodeData.element? ((hset j).trans (if_neg fun heq => hj heq.1.symm))

/-- What happens to no element comes after. -/
theorem Marks.retains (h : d.Marks e' d₁) (h' : d₁.Retains Tree.NoNode d')
    (hcurrent : d.current < d.tree.size) : d.Marks e' d' := by
  have hle := h.grows.size_le
  refine ⟨h.toHolds.trans h'.toHolds, ?_, fun j hj hne => ?_⟩
  · have hsame := h'.elements d.current (Nat.lt_of_lt_of_le hcurrent hle)
    rw [h.marked] at hsame
    exact NodeData.element?_eq_some.1 hsame
  · exact (h'.elements j (Nat.lt_of_lt_of_le hj hle)).trans (h.others j hj hne)

/-- The start tag of the open node is about to end, and the other ones have ended. -/
structure AtBracket (text : Text) (ts : List Token) (pos : Nat) (e : Element) (d : Draft) :
    Prop where
  data : d.currentData = .element e
  unbegun : e.startTagEnd = none
  unended : e.endTagStart = none
  attributes : d.tree.HasOnlyAttributes d.current
  laid : d.Laid text pos
  begun : ∀ j e', d.tree.Under d.current j → (d.tree.data j).element? = some e' →
    j ≠ d.current → e'.startTagEnd ≠ none
  later : ∀ c ∈ ts, c.kind = .startTagClose → c.span.stop < pos

/-- What is known of a node that is attached at `pos`, when the tokens `ts` have been read. -/
structure Arrives (ts : List Token) (pos pos' : Nat) (d : Draft) (p : Nat) (k : NodeKind)
    (start : Nat) : Prop where
  start : start = pos
  /-- Attributes stand in a start tag. -/
  named : k = .attr ∨ k = .directive →
    ∃ e, (d.tree.data p).element? = some e ∧ e.startTagEnd = none
  structural : k.isStructural = true →
    pos < pos' ∧ p < d.tree.size ∧ ∀ c ∈ ts, c.span.stop ≤ pos

/-- **What a token can do**, from the place `pos` to the place `pos'`. -/
inductive Effect (text : Text) (ts : List Token) (pos pos' : Nat) (t : Token) (d d' : Draft) :
    Prop where
  | adds (kind : t.kind.retains = true ∨ t.kind = .endTagClose)
      (retains : d.Retains (d.Arrives ts pos pos') d')
  /-- A comment, a block or a mustache ends, of which there is only one. -/
  | ends {data : NodeData} {d₁ : Draft} (kind : t.kind.ended? = some d.currentKind)
      (same : data.kind = d.currentKind)
      (alone : ∀ i, d.tree.Under d.current i → d.tree.kind i = d.currentKind → i = d.current)
      (stop : t.span.stop = pos') (leaves : d.Leaves data pos' d₁)
      (after : d₁.Retains Tree.NoNode d')
  | names (kind : t.kind = .startTag) (data : d.currentData = .element {})
      (marks : d.Marks { tag := t.lexeme } d')
  /-- The start tag of an element that has content ends. -/
  | begins {d₁ : Draft} {e : Element} (kind : t.kind = .startTagClose) (stop : t.span.stop = pos')
      (before : d.Retains Tree.NoNode d₁) (bracket : d₁.AtBracket text ts pos e)
      (void : isVoid e.tag = false) (marks : d₁.Marks { e with startTagEnd := some pos' } d')
  /-- An element ends with its start tag. -/
  | completes {d₁ d₂ : Draft} {e e' : Element} (stop : t.span.stop = pos')
      (before : d.Retains Tree.NoNode d₁) (bracket : d₁.AtBracket text ts pos e)
      (how : t.kind = .startTagClose ∧ isVoid e.tag = true ∧
          e' = { e with startTagEnd := some pos' } ∨
        t.kind = .startTagSelfClose ∧
          e' = { e with selfClose := true, startTagEnd := some pos' })
      (leaves : d₁.Leaves (.element e') pos' d₂) (after : d₂.Retains Tree.NoNode d')
  /-- An end tag closes the elements below its own, and that one. -/
  | closes {d₁ d₂ d₃ : Draft} {below : List Nat} {e : Element} {tag : List Token} {name : Text}
      (kind : t.kind = .endTagClose) (tokens : tag <:+ ts) (is : IsEndTag tag pos name)
      (lt : pos < pos') (stop : t.span.stop = pos') (begun : d.Begun)
      (nested : ∀ i, d.tree.Under d.current i → d.tree.kind i = .element ∨ i = Tree.root)
      (before : d.Retains Tree.NoNode d₁) (laid : d₁.Laid text pos)
      (abandoned : Abandoned text pos below d₁ d₂)
      (data : d₂.currentData = .element e) (same : equalIgnoringCase e.tag name = true)
      (leaves : d₂.Leaves (.element { e with endTagStart := some pos }) pos' d₃)
      (after : d₃.Retains Tree.NoNode d')

theorem Begun.of_under (h : d.Begun) (hunder : d.tree.Under d.current i)
    (hdata : (d.tree.data i).element? = some e) : e.startTagEnd ≠ none := by
  obtain ⟨es, hes, hall⟩ := h.opened
  exact hall _ (hes.mem_of_under h.shape.root hunder hdata)

/-! ## Where the draft is -/

/-- The place that the draft has come to: that of the scanner, or the beginning of the end tag that
is read. -/
def reach (d : Draft) (s : Scanner) : Nat :=
  match s.memory.state with
  | .endTagName | .endTag => d.endTagStart
  | _ => s.offset

theorem reach_of_inEndTag {s : Scanner} (h : s.memory.InEndTag) : d.reach s = d.endTagStart := by
  rcases h with h | h <;> simp only [reach, h]

theorem reach_of_not {s : Scanner} (h : ¬ s.memory.InEndTag) : d.reach s = s.offset := by
  unfold reach
  split
  · next state => exact absurd (.inl state) h
  · next state => exact absurd (.inr state) h
  · rfl

/-- The draft is abreast of the scanner, behind the tokens `ts`. -/
structure Abreast (text : Text) (s : Scanner) (d : Draft) (ts : List Token) : Prop where
  sits : d.Sits text s
  attuned : d.Attuned text s
  tracked : s.dialect = .template → RawElement.Tracked text s d ts
  read : ∀ c ∈ ts, c.span.stop ≤ s.offset
  endTag : s.memory.InEndTag → d.InEndTag ts s.memory ∧ d.endTagStart < s.offset

variable {s : Scanner}

theorem Abreast.laid (h : d.Abreast text s ts) : d.Laid text (d.reach s) := by
  by_cases hin : s.memory.InEndTag
  · rw [reach_of_inEndTag hin]
    exact (h.sits.laidAt.endTag hin).2
  · rw [reach_of_not hin]
    exact h.sits.laidAt.laid

theorem Abreast.shape (h : d.Abreast text s ts) : d.tree.Shape d.current := h.laid.shape

theorem Abreast.reach_le (h : d.Abreast text s ts) : d.reach s ≤ s.offset := by
  by_cases hin : s.memory.InEndTag
  · rw [reach_of_inEndTag hin]
    exact (h.sits.laidAt.endTag hin).1
  · exact Nat.le_of_eq (reach_of_not hin)

/-- What only templates have is not read in prose. -/
theorem Abreast.template (h : d.Abreast text s ts) (hrest : s.rest ≠ [])
    (hkind : s.scan.1.kind.inProse = false) : s.dialect = .template := by
  rcases h.attuned with ⟨prose, deal, hsynced⟩ | ⟨_, _, hfollows, _⟩
  · obtain ⟨m, kind, error, rest, m', hturns, hyields, hscan⟩ := Scanner.scan_before_end hrest
    obtain rfl : m = s.memory := hturns.eq_of_rank hsynced.rank_eq_zero
    have hprose := hsynced.inProse prose hyields
    rw [hscan] at hkind
    rw [show (s.take kind error rest m').1.kind = kind from rfl, hprose] at hkind
    simp at hkind
  · exact hfollows.dialect

/-- Which of the tokens are read within an end tag. -/
theorem kind_in_endTag (hin : s.memory.InEndTag) (hrest : s.rest ≠ []) :
    (s.scan.1.kind = .whitespace ∨ s.scan.1.kind = .unknown) ∨ s.scan.1.kind = .endTag ∨
      s.scan.1.kind = .endTagClose := by
  obtain ⟨m, kind, error, rest, m', hturns, hyields, hscan⟩ := Scanner.scan_before_end hrest
  rw [hscan]
  exact hyields.kind_in_endTag (hturns.keeps (fun _ _ h hturn => hturn.inEndTag_of h) hin)

/-- Which of the tokens lead to a place within an end tag. -/
theorem Abreast.kind_to_endTag (h : d.Abreast text s ts) (hrest : s.rest ≠ [])
    (hin : s.scan.2.memory.InEndTag) :
    s.scan.1.kind = .endTagOpen ∨ s.memory.InEndTag ∧
      (s.scan.1.kind = .whitespace ∨ s.scan.1.kind = .unknown ∨ s.scan.1.kind = .endTag) := by
  obtain ⟨m, kind, error, rest, m', hturns, hyields, hscan⟩ := Scanner.scan_before_end hrest
  have hreturns : m.ReturnsOutside := by
    refine hturns.keeps (P := Memory.ReturnsOutside) (fun _ _ h hturn => ?_) h.sits.laidAt.returns
    unfold Memory.ReturnsOutside
    rw [hturn.returnState]
    exact h
  rw [hscan] at hin ⊢
  refine (hyields.inEndTag hreturns hin).imp_right fun ⟨hm, hkind⟩ => ⟨?_, hkind⟩
  by_contra hout
  refine hturns.keeps (P := fun m => ¬ m.InEndTag) (fun _ _ h hturn hin => ?_) hout hm
  exact h (hturn.inEndTag hin)

/-- Behind the other tokens the place is that of the scanner. -/
theorem Abreast.reach_next (h : d.Abreast text s ts) (hrest : s.rest ≠ [])
    (hkind : s.scan.1.kind ≠ .endTagOpen) (hin : ¬ s.memory.InEndTag) :
    (d.takeToken s.scan.1).reach s.scan.2 = s.scan.2.offset := by
  refine reach_of_not fun hnext => ?_
  rcases h.kind_to_endTag hrest hnext with hopen | ⟨hmemory, _⟩
  · exact hkind hopen
  · exact hin hmemory

/-! ## One token -/

/-- Nothing is done within an end tag. -/
theorem build_in_endTag
    (hkind : (t.kind = .whitespace ∨ t.kind = .unknown) ∨ t.kind = .endTag) :
    d.Retains Tree.NoNode (d.build t) := by
  rcases hkind with hkind | hkind
  · rw [TemplateArtifact.build_of_idle hkind]
    exact .refl d
  · simp only [build, hkind, endTagNamed]
    exact retains_of_tree rfl rfl rfl

/-- The scanner and the draft in a start tag. -/
theorem Abreast.amid (h : d.Abreast text s ts) (hrest : s.rest ≠ [])
    (hkind : s.scan.1.kind = .startTagClose ∨ s.scan.1.kind = .startTagSelfClose ∨
      s.scan.1.kind = .attributeName ∨ s.scan.1.kind = .directiveName) :
    ∃ i e outer, d.AmidStartTag ts s.offset i e outer := by
  have htemplate : s.dialect = .template := by
    refine h.template hrest ?_
    rcases hkind with hkind | hkind | hkind | hkind <;> rw [hkind] <;> rfl
  have htagged := (h.tracked htemplate).tagged
  obtain ⟨m, kind, error, rest, m', hturns, hyields, hscan⟩ := Scanner.scan_before_end hrest
  have hm : m.inStartTag = s.memory.inStartTag :=
    hturns.keeps (P := fun m => m.inStartTag = s.memory.inStartTag)
      (fun _ _ h hturn => hturn.inStartTag.trans h) rfl
  rw [hscan] at hkind
  rw [Tagged, if_pos (hm.symm.trans (hyields.in_startTag hkind))] at htagged
  exact htagged

/-- Where an end tag ends, or a start tag begins, all start tags have ended. -/
theorem Abreast.begun (h : d.Abreast text s ts) (hrest : s.rest ≠ [])
    (hkind : s.scan.1.kind = .endTagClose ∨ s.scan.1.kind = .startTagOpen) : d.Begun := by
  have htemplate : s.dialect = .template := by
    refine h.template hrest ?_
    rcases hkind with hkind | hkind <;> rw [hkind] <;> rfl
  have htagged := (h.tracked htemplate).tagged
  obtain ⟨m, kind, error, rest, m', hturns, hyields, hscan⟩ := Scanner.scan_before_end hrest
  have hm : m.inStartTag = s.memory.inStartTag :=
    hturns.keeps (P := fun m => m.inStartTag = s.memory.inStartTag)
      (fun _ _ h hturn => hturn.inStartTag.trans h) rfl
  rw [hscan] at hkind
  rw [Tagged, if_neg (by simp [← hm, hyields.not_in_startTag hkind])] at htagged
  exact htagged

theorem Abreast.effect_adds (h : d.Abreast text s ts) (hrest : s.rest ≠ [])
    (hkind : s.scan.1.kind.retains = true) :
    Effect text ts (d.reach s) ((d.takeToken s.scan.1).reach s.scan.2) s.scan.1 d
      (d.takeToken s.scan.1) := by
  have hspan := s.scan_span
  refine .adds (.inl hkind) ?_
  by_cases hin : s.memory.InEndTag
  · have hwithin : (s.scan.1.kind = .whitespace ∨ s.scan.1.kind = .unknown) ∨
        s.scan.1.kind = .endTag := by
      rcases kind_in_endTag hin hrest with hidle | hname | hclose
      · exact .inl hidle
      · exact .inr hname
      · rw [hclose] at hkind
        simp [TokenKind.retains] at hkind
    exact ((build_in_endTag hwithin).trans (retains_fault d _)).mono fun _ _ _ h => h.elim
  by_cases hopen : s.scan.1.kind = .endTagOpen
  · have hbuild : d.Retains Tree.NoNode (d.build s.scan.1) := by
      simp only [build, hopen, endTagOpen]
      exact (retains_leaveAttribute d).trans (retains_of_tree rfl rfl rfl)
    exact (hbuild.trans (retains_fault d _)).mono fun _ _ _ h => h.elim
  rw [reach_of_not hin, h.reach_next hrest hopen hin]
  refine (retains_takeToken h.shape hkind).mono fun p k start hnew => ?_
  refine ⟨hnew.start.trans (by rw [hspan.1]), fun hattribute => ?_, fun hstructural => ?_⟩
  · obtain ⟨hname, rfl⟩ := hnew.named hattribute
    have hexpects := h.attuned.expects
    have htag : d.InStartTag := by
      rcases hname with hname | hname <;> rwa [hname] at hexpects
    obtain ⟨i, e, outer, hamid⟩ := h.amid hrest (.inr (.inr hname))
    obtain ⟨_, hdata, _⟩ := hamid.leaveAttribute h.shape.root htag
    have hkeep := (passes_leaveAttribute (d := d) h.shape.root).keeps.elements
      d.leaveAttribute.current
    exact ⟨e, hkeep.symm.trans (congrArg NodeData.element? hdata), hamid.unbegun⟩
  · obtain ⟨hopened, hold⟩ := hnew.opened hstructural
    refine ⟨Scanner.offset_lt hrest ?_, hold, h.read⟩
    refine ⟨?_, ?_, ?_⟩ <;> intro heq <;> rw [heq] at hopened <;>
      simp [TokenKind.opened?] at hopened

/-- What may stand under a node is a matter of its kind. -/
theorem Attuned.nests (h : d.Attuned text s) (hp : d.tree.parent i = some p) :
    s.dialect.nests (d.tree.kind p) = true := by
  rcases h with ⟨_, _, hsynced⟩ | ⟨_, rfl, hfollows, _⟩
  · obtain ⟨_, _, hstands⟩ := hsynced.stands
    exact (hstands.nests i p hp).1
  · obtain ⟨_, hstands⟩ := hfollows.synced.stands
    rw [hfollows.dialect]
    exact (hstands.nests i p hp).1

/-- **Of what tokens end only the open node is open**, as nothing stands under it. -/
theorem Attuned.alone {k : NodeKind} (h : d.Attuned text s) (hkind : t.kind.ended? = some k)
    (hunder : d.tree.Under d.current i) (hk : d.tree.kind i = k) : i = d.current := by
  by_contra hne
  obtain ⟨c, hc⟩ := hunder.exists_child hne
  have hnests := h.nests hc
  rw [hk] at hnests
  cases ht : t.kind <;> rw [ht] at hkind <;>
    simp only [TokenKind.ended?, Option.some.injEq, reduceCtorEq] at hkind <;>
    subst hkind <;> cases hdialect : s.dialect <;> rw [hdialect] at hnests <;>
    simp [Dialect.nests] at hnests

/-- Only the root has no parent. -/
theorem Laid.exists_parent (h : d.Laid text pos) (hkind : d.currentKind ≠ .root) :
    ∃ p : Nat, d.tree.parent d.current = some p := by
  have hne : d.current ≠ Tree.root := fun heq => hkind (by rw [currentKind, heq]; exact h.root_kind)
  obtain ⟨p, _, hp⟩ := h.shape.older d.current (Nat.pos_of_ne_zero hne) h.shape.edge_lt
  exact ⟨p, hp⟩

/-- **The end of a comment, a block, or a mustache.** -/
theorem Abreast.effect_ends {k : NodeKind} (h : d.Abreast text s ts) (hrest : s.rest ≠ [])
    (hkind : s.scan.1.kind.ended? = some k) :
    Effect text ts (d.reach s) ((d.takeToken s.scan.1).reach s.scan.2) s.scan.1 d
      (d.takeToken s.scan.1) := by
  have hstop : s.scan.1.span.stop = s.scan.2.offset := by rw [s.scan_span.1]
  have hnot : s.scan.1.kind ≠ .endTagOpen ∧ ¬ s.memory.InEndTag := by
    refine ⟨fun heq => by simp [heq, TokenKind.ended?] at hkind, fun hin => ?_⟩
    rcases kind_in_endTag hin hrest with (heq | heq) | heq | heq <;>
      simp [heq, TokenKind.ended?] at hkind
  have hexpects := h.attuned.expects
  have hcurrent : d.currentKind = k := by
    cases ht : s.scan.1.kind <;> rw [ht] at hkind hexpects <;>
      simp only [TokenKind.ended?, Option.some.injEq, reduceCtorEq] at hkind <;>
      exact hkind ▸ hexpects
  obtain ⟨p, hp⟩ := h.laid.exists_parent (by
    rw [hcurrent]
    rintro rfl
    cases ht : s.scan.1.kind <;> rw [ht] at hkind <;> simp [TokenKind.ended?] at hkind)
  -- the three differ in what is noted in the node, and in what becomes of its span
  obtain ⟨data, d₁, hsame, hset, hquiet, hbuilt⟩ : ∃ data d₁, data.kind = d.currentKind ∧
      d.Sets data d₁ ∧ d₁.diagnostics = d.diagnostics ∧
      (d₁.close s.scan.1.span.stop).Retains Tree.NoNode (d.build s.scan.1) := by
    cases ht : s.scan.1.kind <;> rw [ht] at hkind <;>
      simp only [TokenKind.ended?, Option.some.injEq, reduceCtorEq] at hkind <;>
      subst hkind <;> simp only [build, ht]
    case commentEnd =>
      rw [if_pos hcurrent]
      exact ⟨_, d, rfl, sets_self d, rfl, .refl _⟩
    case codeBlockEnd =>
      obtain ⟨block, hdata⟩ := exists_codeBlock hcurrent
      simp only [codeBlockEnd, hdata]
      split
      · refine ⟨_, _, ?_, sets_setCurrent h.shape.edge_lt (.codeBlock
          { block with contentSpan := Span.empty s.scan.1.span.start }), rfl, .refl _⟩
        exact hcurrent.symm
      · exact ⟨_, d, rfl, sets_self d, rfl, .refl _⟩
    case mustacheEnd =>
      obtain ⟨code, inner, hdata⟩ := exists_mustache hcurrent
      simp only [mustacheEnd, hdata]
      exact ⟨_, d, rfl, sets_self d, rfl, retains_attributeValue _ _⟩
  have hleaves := hset.leaves hquiet h.shape hp s.scan.1.span.stop
  rw [h.reach_next hrest hnot.1 hnot.2]
  refine .ends (by rw [hkind, hcurrent]) hsame (fun i hi hk => ?_) hstop (hstop ▸ hleaves)
    (hbuilt.trans (retains_fault d _))
  exact h.attuned.alone hkind hi (hk.trans hcurrent)

/-- **The name of an element.** -/
theorem Abreast.effect_names (h : d.Abreast text s ts) (hkind : s.scan.1.kind = .startTag) :
    Effect text ts (d.reach s) ((d.takeToken s.scan.1).reach s.scan.2) s.scan.1 d
      (d.takeToken s.scan.1) := by
  have hexpects := h.attuned.expects
  rw [hkind] at hexpects
  have hdata : d.currentData = .element {} := hexpects.1
  have hmarks := marks_setCurrent hdata h.shape { tag := s.scan.1.lexeme }
  have hbuilt : (d.setCurrent (.element { tag := s.scan.1.lexeme })).Retains Tree.NoNode
      (d.build s.scan.1) := by
    simp only [build, hkind, startTag, hdata]
    exact retains_extend _ _
  exact .names hkind hdata
    (hmarks.retains (hbuilt.trans (retains_fault d _)) h.shape.edge_lt)

/-- In front of the bracket that ends it a start tag has nothing but attributes. -/
theorem Abreast.atBracket (h : d.Abreast text s ts) (hrest : s.rest ≠ [])
    (hkind : s.scan.1.kind = .startTagClose ∨ s.scan.1.kind = .startTagSelfClose) :
    ∃ e, d.leaveAttribute.AtBracket text ts s.offset e := by
  have hexpects := h.attuned.expects
  have htag : d.InStartTag := by
    rcases hkind with hkind | hkind <;> rwa [hkind] at hexpects
  obtain ⟨i, e, outer, hamid⟩ := h.amid hrest (hkind.imp_right .inl)
  obtain ⟨rfl, hdata, hopened⟩ := hamid.leaveAttribute h.shape.root htag
  have hlaid := h.sits.laidAt.laid.leaveAttribute
  refine ⟨e, hdata, hamid.unbegun, hamid.unended,
    hamid.attributes.congr (keepsChildren_leaveAttribute d), hlaid, fun j e' hj hdata' hne => ?_,
    hamid.later⟩
  rcases List.mem_cons.1 (hopened.mem_of_under hlaid.shape.root hj hdata') with heq | houter
  · exact absurd (Prod.mk.inj heq).1 hne
  · exact hamid.begun _ houter

/-- **The bracket that ends a start tag.** -/
theorem Abreast.effect_bracket (h : d.Abreast text s ts) (hrest : s.rest ≠ [])
    (hkind : s.scan.1.kind = .startTagClose ∨ s.scan.1.kind = .startTagSelfClose) :
    Effect text ts (d.reach s) ((d.takeToken s.scan.1).reach s.scan.2) s.scan.1 d
      (d.takeToken s.scan.1) := by
  have hstop : s.scan.1.span.stop = s.scan.2.offset := by rw [s.scan_span.1]
  have hnot : s.scan.1.kind ≠ .endTagOpen ∧ ¬ s.memory.InEndTag := by
    refine ⟨fun heq => by simp [heq] at hkind, fun hin => ?_⟩
    rcases kind_in_endTag hin hrest with (heq | heq) | heq | heq <;> simp [heq] at hkind
  obtain ⟨e, hbracket⟩ := h.atBracket hrest hkind
  have hshape := hbracket.laid.shape
  have hfault : (d.build s.scan.1).Retains Tree.NoNode (d.takeToken s.scan.1) :=
    retains_fault d _
  obtain ⟨p, hp⟩ := hbracket.laid.exists_parent
    (by rw [currentKind, Tree.kind_of_data hbracket.data]; simp [NodeData.kind])
  have hleaves (e' : Element) : d.leaveAttribute.Leaves (.element e') s.scan.1.span.stop
      ((d.leaveAttribute.setCurrent (.element e')).close s.scan.1.span.stop) :=
    (sets_setCurrent hshape.edge_lt _).leaves rfl hshape hp _
  rw [reach_of_not hnot.2, h.reach_next hrest hnot.1 hnot.2, ← hstop]
  rcases hkind with hkind | hkind
  · cases hvoid : isVoid e.tag with
    | true =>
      have hbuild : d.build s.scan.1 = (d.leaveAttribute.setCurrent (.element
          { e with startTagEnd := some s.scan.1.span.stop })).close s.scan.1.span.stop := by
        simp only [build, hkind, startTagClose, hbracket.data, hvoid, if_true]
      exact .completes rfl (retains_leaveAttribute d) hbracket (.inl ⟨hkind, hvoid, rfl⟩)
        (hleaves _) (hbuild ▸ hfault)
    | false =>
      have hbuild : d.build s.scan.1 = (d.leaveAttribute.setCurrent (.element
          { e with startTagEnd := some s.scan.1.span.stop })).extend s.scan.1.span.stop := by
        simp only [build, hkind, startTagClose, hbracket.data, hvoid, Bool.false_eq_true, if_false]
      refine .begins hkind rfl (retains_leaveAttribute d) hbracket hvoid
        ((marks_setCurrent hbracket.data hshape _).retains ?_ hshape.edge_lt)
      rw [hbuild] at hfault
      exact (retains_extend _ _).trans hfault
  · have hbuild : d.build s.scan.1 = (d.leaveAttribute.setCurrent (.element
        { e with selfClose := true, startTagEnd := some s.scan.1.span.stop })).close
          s.scan.1.span.stop := by
      simp only [build, hkind, startTagSelfClose, hbracket.data]
    exact .completes rfl (retains_leaveAttribute d) hbracket (.inr ⟨hkind, rfl⟩) (hleaves _)
      (hbuild ▸ hfault)

/-- The last bracket of an end tag is read within that tag, and leads out of it. -/
theorem Abreast.leaves_endTag (h : d.Abreast text s ts) (hrest : s.rest ≠ [])
    (hkind : s.scan.1.kind = .endTagClose) :
    s.memory.InEndTag ∧ ¬ s.scan.2.memory.InEndTag := by
  refine ⟨?_, fun hnext => ?_⟩
  · obtain ⟨m, kind, error, rest, m', hturns, hyields, hscan⟩ := Scanner.scan_before_end hrest
    obtain rfl : kind = .endTagClose := by
      rw [hscan] at hkind
      exact hkind
    by_contra hout
    refine hturns.keeps (P := fun m => ¬ m.InEndTag) (fun _ _ h hturn hin => ?_) hout
      hyields.of_endTagClose
    exact h (hturn.inEndTag hin)
  · rcases h.kind_to_endTag hrest hnext with hopen | ⟨_, hidle⟩
    · simp [hkind] at hopen
    · simp [hkind] at hidle

/-- In an end tag everything open is an element. -/
theorem Abreast.nested (h : d.Abreast text s ts) (htemplate : s.dialect = .template)
    (hin : s.memory.InEndTag) (hunder : d.tree.Under d.current i) :
    d.tree.kind i = .element ∨ i = Tree.root := by
  obtain ⟨_, rfl, hfollows, _⟩ := (h.tracked htemplate).exists_follows
  have hsynced := hfollows.synced
  obtain ⟨path, hn, hstands⟩ : ∃ path, TemplateArtifact.Nested path ∧ Stands _ _ _ _ path _ _ := by
    rcases hin with state | state <;> simp only [TemplateArtifact.Synced, state] at hsynced <;>
      exact hsynced
  exact hn.under hstands.chain hstands.shape.root hunder

/-- The element that an end tag closes: it is open, and has the name of the tag. -/
theorem openElement?_eq_some {name : Text} (hshape : d.tree.Shape d.current)
    (h : d.openElement? name = some i) :
    d.tree.Under d.current i ∧
      ∃ e, d.tree.data i = .element e ∧ equalIgnoringCase e.tag name = true := by
  have hmem := List.mem_of_find?_eq_some h
  have helement := List.find?_some h
  refine ⟨?_, ?_⟩
  · rcases List.mem_cons.1 hmem with rfl | hmem
    · exact .refl _ _
    · exact Tree.under_of_mem_ancestors hshape hmem
  · split at helement
    · next e hdata => exact ⟨e, hdata, helement⟩
    · simp at helement

/-- **What an end tag does** that has a name, and an element to close. -/
theorem exists_leaves_closeDownTo {start : Nat} {name : Text} (h : d.Laid text start)
    (hfind : d.openElement? name = some i) (stop : Nat) :
    ∃ below e d₁, Abandoned text start below d d₁ ∧ d₁.current = i ∧
      d₁.currentData = .element e ∧ equalIgnoringCase e.tag name = true ∧
      d₁.Leaves (.element { e with endTagStart := some start }) stop
        (((closeDownTo i start d.tree.size d).setEndTagStart i start).close stop) := by
  obtain ⟨hunder, e, hdata, hsame⟩ := openElement?_eq_some h.shape hfind
  obtain ⟨below, hbelow, hcurrent⟩ :=
    exists_abandoned_closeDownTo i d.tree.size h hunder (Nat.le_of_lt h.shape.edge_lt)
  have hlaid : (closeDownTo i start d.tree.size d).Laid text start :=
    hbelow.keeps (P := fun d => d.Laid text start) h fun _ _ step _ => step.after
  have hdata' : (closeDownTo i start d.tree.size d).currentData = .element e := by
    obtain ⟨_, hlast⟩ := (hbelow.descends h.shape).last
    rw [currentData, Tree.data, hlast, hcurrent]
    exact hdata
  refine ⟨below, e, _, hbelow, hcurrent, hdata', hsame, ?_⟩
  obtain ⟨p, hp⟩ := hlaid.exists_parent
    (by rw [currentKind, Tree.kind_of_data hdata']; simp [NodeData.kind])
  have hset := sets_setEndTagStart hlaid.shape.edge_lt start
  rw [hdata', hcurrent] at hset
  exact hset.leaves (diagnostics_setEndTagStart _ i start) hlaid.shape hp stop

/-- **The last bracket of an end tag.** -/
theorem Abreast.effect_endTag (h : d.Abreast text s ts) (hrest : s.rest ≠ [])
    (hkind : s.scan.1.kind = .endTagClose) :
    Effect text ts (d.reach s) ((d.takeToken s.scan.1).reach s.scan.2) s.scan.1 d
      (d.takeToken s.scan.1) := by
  have hspan := s.scan_span
  have hstop : s.scan.1.span.stop = s.scan.2.offset := by rw [hspan.1]
  obtain ⟨hin, hout⟩ := h.leaves_endTag hrest hkind
  have htemplate := h.template hrest (by rw [hkind]; rfl)
  obtain ⟨htag, hlt⟩ := h.endTag hin
  have hfault : (d.build s.scan.1).Retains Tree.NoNode (d.takeToken s.scan.1) :=
    retains_fault d _
  have hbuild : d.build s.scan.1 = d.endTagClose s.scan.1.span.stop := by
    simp only [build, hkind]
  have hread : ({ d with endTagName := none } : Draft).Laid text d.endTagStart :=
    (h.sits.laidAt.endTag hin).2.of_tree rfl rfl
  have hbefore : d.Retains Tree.NoNode { d with endTagName := none } := retains_of_tree rfl rfl rfl
  rw [reach_of_inEndTag hin, reach_of_not hout, ← hstop]
  unfold Draft.endTagClose at hbuild
  split at hbuild
  · exact .adds (.inr hkind) ((hbuild ▸ hfault).mono fun _ _ _ h => h.elim)
  · next name hname =>
    dsimp only at hbuild
    split at hbuild
    · have hreport : d.Retains Tree.NoNode (d.build s.scan.1) := by
        rw [hbuild]
        exact hbefore.trans (retains_push rfl)
      exact .adds (.inr hkind) ((hreport.trans hfault).mono fun _ _ _ h => h.elim)
    · next target hfind =>
      obtain ⟨below, e, d₁, habandoned, _, hdata, hsame, hleaves⟩ :=
        exists_leaves_closeDownTo hread hfind s.scan.1.span.stop
      rw [hbuild] at hfault
      obtain ⟨tag, name', htokens, his, hname'⟩ : ∃ tag name', tag <:+ ts ∧
          IsEndTag tag d.endTagStart name' ∧ d.endTagName = some name' := by
        cases htag with
        | bracket _ _ _ _ hnone => simp [hname] at hnone
        | named _ htokens his hname => exact ⟨_, _, htokens, his, hname⟩
      obtain rfl := Option.some.inj (hname.symm.trans hname')
      exact .closes hkind htokens his (by omega) rfl (h.begun hrest (.inl hkind))
        (fun i hi => h.nested htemplate hin hi) hbefore hread habandoned hdata hsame hleaves hfault

/-- **What a token does** is one of these. -/
theorem Abreast.effect (h : d.Abreast text s ts) (hrest : s.rest ≠ []) :
    Effect text ts (d.reach s) ((d.takeToken s.scan.1).reach s.scan.2) s.scan.1 d
      (d.takeToken s.scan.1) := by
  cases hkind : s.scan.1.kind with
  | commentEnd | codeBlockEnd | mustacheEnd => exact h.effect_ends hrest (by rw [hkind]; rfl)
  | startTag => exact h.effect_names hkind
  | startTagClose => exact h.effect_bracket hrest (.inl hkind)
  | startTagSelfClose => exact h.effect_bracket hrest (.inr hkind)
  | endTagClose => exact h.effect_endTag hrest hkind
  | _ => exact h.effect_adds hrest (by rw [hkind]; rfl)

/-! ## All tokens -/

/-- The name of an end tag is read once, and what follows it is read within the tag. -/
theorem state_of_endTag (hrest : s.rest ≠ []) (hkind : s.scan.1.kind = .endTag) :
    s.scan.2.memory.state = .endTag ∧ s.memory.state ≠ .endTag := by
  constructor
  · obtain ⟨m, kind, error, rest, m', _, hyields, hscan⟩ := Scanner.scan_before_end hrest
    obtain rfl : kind = .endTag := by
      rw [hscan] at hkind
      exact hkind
    rw [hscan]
    cases hyields with
    | endTag _ _ => rfl
  · intro state
    obtain ⟨kind, error, rest, m, hscan, ⟨hidle, _⟩ | ⟨hclose, _⟩⟩ :=
      RawElement.scan_endTag state hrest <;> rw [hscan] at hkind
    · obtain rfl : kind = .endTag := hkind
      simp at hidle
    · obtain rfl : kind = .endTag := hkind
      simp at hclose

/-- Space and strays do not end the tag. -/
theorem state_of_idle (state : s.memory.state = .endTag) (hrest : s.rest ≠ [])
    (hkind : s.scan.1.kind = .whitespace ∨ s.scan.1.kind = .unknown) :
    s.scan.2.memory.state = .endTag := by
  obtain ⟨_, _, _, _, hscan, ⟨_, hm⟩ | ⟨hclose, _⟩⟩ := RawElement.scan_endTag state hrest
  · rw [hscan]
    exact hm
  · rw [hscan] at hkind
    rcases hkind with hkind | hkind <;> simp [Scanner.take, hclose] at hkind

/-- Where the end tag begins within which the scanner is one token later. -/
theorem Abreast.endTagStart_scan (h : d.Abreast text s ts) (hrest : s.rest ≠ [])
    (hnext : s.scan.2.memory.InEndTag) :
    s.scan.1.kind = .endTagOpen ∧ (d.takeToken s.scan.1).endTagStart = s.offset ∨
      s.memory.InEndTag ∧ (d.takeToken s.scan.1).endTagStart = d.endTagStart ∧
        (s.scan.1.kind = .whitespace ∨ s.scan.1.kind = .unknown ∨ s.scan.1.kind = .endTag) := by
  obtain ⟨_, _, hstart, _⟩ := RawElement.takeToken_same d s.scan.1
  rw [hstart]
  rcases h.kind_to_endTag hrest hnext with hopen | ⟨hin, hkind⟩
  · refine .inl ⟨hopen, ?_⟩
    simp only [build, hopen, endTagOpen]
    rw [s.scan_span.1]
  · refine .inr ⟨hin, ?_, hkind⟩
    rcases hkind with hkind | hkind | hkind <;> simp only [build, hkind, endTagNamed]

/-- The place moves on. -/
theorem Abreast.reach_mono (h : d.Abreast text s ts) (hrest : s.rest ≠ []) :
    d.reach s ≤ (d.takeToken s.scan.1).reach s.scan.2 := by
  have hle := h.reach_le
  have hspan := s.scan_span
  by_cases hnext : s.scan.2.memory.InEndTag
  · rw [reach_of_inEndTag hnext]
    rcases h.endTagStart_scan hrest hnext with ⟨_, hstart⟩ | ⟨hin, hstart, _⟩
    · omega
    · rw [reach_of_inEndTag hin]
      exact Nat.le_of_eq hstart.symm
  · rw [reach_of_not hnext]
    omega

/-- **How far an end tag is read**, one token later. -/
theorem Abreast.endTag_scan (h : d.Abreast text s ts) (hrest : s.rest ≠ [])
    (hnext : s.scan.2.memory.InEndTag) :
    (d.takeToken s.scan.1).InEndTag (ts ++ [s.scan.1]) s.scan.2.memory ∧
      (d.takeToken s.scan.1).endTagStart < s.scan.2.offset := by
  have hspan := s.scan_span
  obtain ⟨_, _, _, hname⟩ := RawElement.takeToken_same d s.scan.1
  rcases h.endTagStart_scan hrest hnext with ⟨hopen, hstart⟩ | ⟨hin, hstart', hkind⟩
  · refine ⟨.bracket (List.suffix_append ts _) hopen (fun x hx => absurd hx List.not_mem_nil)
      ?_ ?_, ?_⟩
    · rw [hstart, hspan.1]
    · rw [hname]
      simp only [build, hopen, endTagOpen]
    · rw [hstart]
      exact Scanner.offset_lt hrest (by simp [hopen])
  obtain ⟨htag, hlt⟩ := h.endTag hin
  refine ⟨?_, by omega⟩
  have hidle (hkind : s.scan.1.kind = .whitespace ∨ s.scan.1.kind = .unknown) :
      (d.takeToken s.scan.1).endTagName = d.endTagName := by
    rw [hname, TemplateArtifact.build_of_idle hkind]
  cases htag with
  | @bracket o between htokens hbracket hbetween hat hnone =>
    have htokens' : o :: (between ++ [s.scan.1]) <:+ ts ++ [s.scan.1] := by
      obtain ⟨front, rfl⟩ := htokens
      exact ⟨front, by simp⟩
    rcases hkind with hkind | hkind | hkind
    case inr.inr =>
      have hnamed : (d.takeToken s.scan.1).endTagName = some s.scan.1.lexeme := by
        rw [hname]
        simp only [build, hkind, endTagNamed]
      refine .named (state_of_endTag hrest hkind).1 htokens' ?_ hnamed
      exact ⟨o, between, s.scan.1, [], rfl, hbracket, hkind, by simpa using hbetween,
        hat.trans hstart'.symm, rfl⟩
    all_goals
      refine .bracket htokens' hbracket (fun x hx => ?_) (hat.trans hstart'.symm)
        ((hidle (by simp [hkind])).trans hnone)
      rcases List.mem_append.1 hx with hx | hx
      · exact hbetween x hx
      · rw [List.mem_singleton.1 hx]
        simp [hkind]
  | @named tag name state htokens his hnamed =>
    have hkind : s.scan.1.kind = .whitespace ∨ s.scan.1.kind = .unknown := by
      rcases hkind with hkind | hkind | hkind
      · exact .inl hkind
      · exact .inr hkind
      · exact absurd state (state_of_endTag hrest hkind).2
    have htokens' : tag ++ [s.scan.1] <:+ ts ++ [s.scan.1] := by
      obtain ⟨front, rfl⟩ := htokens
      exact ⟨front, by simp⟩
    exact .named (state_of_idle state hrest hkind) htokens' (hstart' ▸ his.snoc hkind)
      ((hidle hkind).trans hnamed)

/-- **One token.** -/
theorem Abreast.scan (h : d.Abreast text s ts) (hrest : s.rest ≠ []) :
    (d.takeToken s.scan.1).Abreast text s.scan.2 (ts ++ [s.scan.1]) := by
  have hspan := s.scan_span
  have hstop : s.scan.1.span.stop = s.scan.2.offset := by rw [hspan.1]
  refine ⟨h.sits.scan, h.attuned.scan h.sits.within,
    fun htemplate => (h.tracked (s.scan_dialect.symm.trans htemplate)).scan hrest, fun c hc => ?_,
    h.endTag_scan hrest⟩
  rcases List.mem_append.1 hc with hc | hc
  · exact Nat.le_trans (h.read c hc) (by omega)
  · rw [List.mem_singleton.1 hc]
    exact Nat.le_of_eq hstop

theorem abreast_start (dialect : Dialect) (text : Text) :
    (Draft.start dialect text).Abreast text (Scanner.start dialect text) [] := by
  refine ⟨sits_start dialect text, attuned_start dialect text, fun htemplate => ?_,
    fun c hc => absurd hc List.not_mem_nil, fun hin => ?_⟩
  · obtain rfl : dialect = .template := htemplate
    exact RawElement.tracked_start text
  · rcases hin with hin | hin <;> simp [Scanner.start] at hin

/-- **All tokens.** What each token keeps is kept. The token that stands for the end of the text
says nothing new. -/
theorem Abreast.run {P : Scanner → Draft → List Token → Prop}
    (step : ∀ {s d ts}, d.Abreast text s ts → s.rest ≠ [] → P s d ts →
      P s.scan.2 (d.takeToken s.scan.1) (ts ++ [s.scan.1]))
    (fuel : Nat) : ∀ {s d ts}, d.Abreast text s ts → P s d ts →
      ∃ s' ts' tail, ((s.tokensIn fuel).foldl Draft.takeToken d).Abreast text s' ts' ∧
        P s' ((s.tokensIn fuel).foldl Draft.takeToken d) ts' ∧
        ts ++ s.tokensIn fuel = ts' ++ tail ∧ ∀ c ∈ tail, c.kind = .eos := by
  induction fuel with
  | zero => exact fun {s d ts} h hP => ⟨s, ts, [], h, hP, rfl, fun c hc => by simp at hc⟩
  | succ fuel ih =>
    intro s d ts h hP
    by_cases heos : s.scan.1.kind = .eos
    · have htokens : s.tokensIn (fuel + 1) = [s.scan.1] := by
        simp only [Scanner.tokensIn, heos, if_true]
      have hlast : d.takeToken s.scan.1 = d := by
        rw [Scanner.scan_at_end ((s.scan_kind_eq_eos_iff).1 heos)]
        rfl
      rw [htokens, List.foldl_cons, List.foldl_nil, hlast]
      exact ⟨s, ts, [s.scan.1], h, hP, rfl, fun c hc => List.mem_singleton.1 hc ▸ heos⟩
    · have htokens : s.tokensIn (fuel + 1) = s.scan.1 :: s.scan.2.tokensIn fuel := by
        simp only [Scanner.tokensIn, heos, if_false]
      have hrest : s.rest ≠ [] := fun hnil => heos ((s.scan_kind_eq_eos_iff).2 hnil)
      have happend : ts ++ s.scan.1 :: s.scan.2.tokensIn fuel
          = ts ++ [s.scan.1] ++ s.scan.2.tokensIn fuel := by simp
      rw [htokens, List.foldl_cons, happend]
      exact ih (h.scan hrest) (step h hrest hP)

/-- **All tokens of a document.** What holds in front of the first one, and is kept by each of them,
holds when the text ends. Then nothing is left but what stands for the end of the text. -/
theorem exists_scanned {P : Scanner → Draft → List Token → Prop} (dialect : Dialect) (text : Text)
    (start : P (Scanner.start dialect text) (Draft.start dialect text) [])
    (step : ∀ {s d ts}, d.Abreast text s ts → s.rest ≠ [] → P s d ts →
      P s.scan.2 (d.takeToken s.scan.1) (ts ++ [s.scan.1])) :
    ∃ d s ts tail, d.finish = Parse.draft dialect text ∧ d.Abreast text s ts ∧ P s d ts ∧
      tokenize dialect text = ts ++ tail ∧ ∀ c ∈ tail, c.kind = .eos := by
  obtain ⟨s, ts, tail, h, hP, htokens, htail⟩ :=
    Abreast.run step (tokenLimit text) (abreast_start dialect text) start
  exact ⟨_, s, ts, tail, rfl, h, hP, htokens, htail⟩

/-- What is said of the draft and of the place that it has come to. -/
theorem exists_abreast {P : Draft → List Token → Nat → Prop} (dialect : Dialect) (text : Text)
    (start : P (Draft.start dialect text) [] 0)
    (step : ∀ {s d ts}, d.Abreast text s ts → s.rest ≠ [] → P d ts (d.reach s) →
      P (d.takeToken s.scan.1) (ts ++ [s.scan.1]) ((d.takeToken s.scan.1).reach s.scan.2)) :
    ∃ d s ts, d.finish = Parse.draft dialect text ∧ d.Abreast text s ts ∧ P d ts (d.reach s) ∧
      ts <+: tokenize dialect text ∧ ∀ c ∈ tokenize dialect text, c.kind ≠ .eos → c ∈ ts := by
  obtain ⟨d, s, ts, tail, hfinish, h, hP, htokens, htail⟩ :=
    exists_scanned (P := fun s d ts => P d ts (d.reach s)) dialect text start step
  refine ⟨d, s, ts, hfinish, h, hP, ⟨tail, htokens.symm⟩, fun c hc hkind => ?_⟩
  rw [htokens, List.mem_append] at hc
  exact hc.resolve_right fun hc => hkind (htail c hc)

end Draft

end HybridMarkup
