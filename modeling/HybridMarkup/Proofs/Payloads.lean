/-
What the nodes of a tree stand for agrees with the document.

That a text in a node is the part of the document that the node notes with it is known already
(`NodeData.Sound`). The rest is here: which nodes repeat all that they cover, what comments,
mustaches and expressions have around their content, that a value is noted together with its place,
and which expressions stand within a paragraph.

Most of that is settled by the token that makes a node. The exceptions are comments and mustaches,
which are read in pieces. While one of them is open the scanner reads nothing but its content and
its end, so it is the only node about which anything is left to say (`Draft.Pending`); all the
others are settled (`Draft.Settled`). If the document ends first, it stays without its closing mark
and ends with the document.

Main statement: `Parse.payloads_agree`, for every configuration and every text.
-/
import HybridMarkup.Proofs.Lockstep

set_option autoImplicit false

namespace HybridMarkup

open Text

/-! ## What there is to say of a node -/

/-- Kinds of nodes that stand for the same wherever they end. -/
def NodeKind.isElastic : NodeKind → Bool
  | root | paragraph | codeBlock | element | attr | directive => true
  | _ => false

/-- What is read of a node with an opening mark before it is closed. -/
def NodeData.begun? : NodeData → Option Text
  | .comment s => some (commentOpening ++ s)
  | .mustache s _ => some (mustacheOpening ++ s)
  | _ => none

/-- The token that closes such a node, and how it is spelled. -/
def NodeKind.closing? : NodeKind → Option (TokenKind × Text)
  | .comment => some (.commentEnd, commentClosing)
  | .mustache => some (.mustacheEnd, mustacheClosing)
  | _ => none

/-- The tokens that such nodes are made of. -/
def TokenKind.isEnclosing : TokenKind → Bool
  | commentStart | commentContent | commentEnd | mustacheStart | mustacheContent | mustacheEnd =>
    true
  | _ => false

/-- One of the tokens is of the given kind and ends where the span ends. -/
def Span.EndsIn (span : Span) (kind : TokenKind) (tokens : List Token) : Prop :=
  ∃ t ∈ tokens, t.kind = kind ∧ t.span.stop = span.stop

instance (span : Span) (kind : TokenKind) (tokens : List Token) :
    Decidable (span.EndsIn kind tokens) :=
  inferInstanceAs (Decidable (∃ t ∈ tokens, t.kind = kind ∧ t.span.stop = span.stop))

/-- The token is the expression with the given content: between braces, unless it is faulty. -/
def Token.Embraces (t : Token) (text s : Text) (span : Span) : Prop :=
  t.kind = .blockExpression ∧ t.span = span ∧ (t.error = none → slice text span = '{' :: s ++ ['}'])

/-- What a node says of itself is true, given its place in the text. -/
def NodeData.Tells (text : Text) (tokens : List Token) (inParagraph : Prop) (span : Span) :
    NodeData → Prop
  | .text s | .importStatement s | .jsxStatement s | .rawText s => s = slice text span
  | .comment s =>
    slice text span = commentOpening ++ s ++ commentClosing ∧ span.EndsIn .commentEnd tokens
  | .mustache s _ =>
    slice text span = mustacheOpening ++ s ++ mustacheClosing ∧ span.EndsIn .mustacheEnd tokens
  | .expressionStatement s _ isInline =>
    (isInline = true ↔ inParagraph) ∧ ∃ t ∈ tokens, t.Embraces text s span
  | .element e => ∀ n, e.endTagStart = some n → isBoundary n text = true
  | .attr a => a.value.isSome = a.valueSpan.isSome
  | .directive a => a.value.isSome = a.valueSpan.isSome
  | .root | .paragraph | .codeBlock _ => True

namespace NodeData

variable {text : Text} {tokens more : List Token} {inParagraph inParagraph' : Prop}
  {span span' : Span} {data : NodeData}

/-- An elastic node may be put anywhere. -/
theorem Tells.of_elastic (h : data.Tells text tokens inParagraph span)
    (helastic : data.kind.isElastic = true) : data.Tells text more inParagraph' span' := by
  cases data <;> first | exact h | simp [kind, NodeKind.isElastic] at helastic

/-- To read on does not make it less true. -/
theorem Tells.mono (h : data.Tells text tokens inParagraph span) (hmore : tokens ⊆ more) :
    data.Tells text more inParagraph span := by
  cases data with
  | comment s | mustache s _ =>
    obtain ⟨hslice, t, ht, hends⟩ := h
    exact ⟨hslice, t, hmore ht, hends⟩
  | expressionStatement s _ _ =>
    obtain ⟨hinline, t, ht, hembraces⟩ := h
    exact ⟨hinline, t, hmore ht, hembraces⟩
  | _ => exact h

/-- A node with an opening mark is told once its closing mark is read. -/
theorem tells_of_closed {begun mark : Text} {ending : TokenKind} (hbegun : data.begun? = some begun)
    (hclosing : data.kind.closing? = some (ending, mark)) (hslice : slice text span = begun ++ mark)
    (hends : span.EndsIn ending tokens) : data.Tells text tokens inParagraph span := by
  cases data <;> simp only [begun?, kind, NodeKind.closing?, Option.some.injEq, Prod.mk.injEq,
    reduceCtorEq] at hbegun hclosing
  · obtain ⟨rfl, rfl⟩ := hclosing
    subst hbegun
    exact ⟨hslice, hends⟩
  · obtain ⟨rfl, rfl⟩ := hclosing
    subst hbegun
    exact ⟨hslice, hends⟩

/-- A node that is read in pieces. -/
theorem kind_of_begun {begun : Text} (h : data.begun? = some begun) :
    data.kind = .comment ∨ data.kind = .mustache := by
  cases data <;> simp_all [begun?, kind]

end NodeData

/-- The node stands in a paragraph. -/
def Tree.InParagraph (t : Tree) (i : Nat) : Prop :=
  ∃ p : Nat, t.parent i = some p ∧ t.kind p = .paragraph

/-- Only kinds and parents matter to that. -/
theorem Tree.inParagraph_congr {t t' : Tree} (hkind : ∀ j, t'.kind j = t.kind j)
    (hparent : ∀ j, t'.parent j = t.parent j) (i : Nat) :
    t'.InParagraph i ↔ t.InParagraph i := by
  unfold InParagraph
  simp only [hkind, hparent]

namespace Draft

variable {text : Text} {tokens more : List Token} {aside aside' : Nat → NodeData → Span → Prop}
  {pos pos' : Nat} {d : Draft} {t : Token}

/-- What the nodes say of themselves is true, but for those that are set aside; and every expression
that was read has its node. -/
structure Tells (text : Text) (tokens : List Token) (aside : Nat → NodeData → Span → Prop)
    (d : Draft) : Prop where
  node : ∀ i : Nat,
    (d.tree.data i).Tells text tokens (d.tree.InParagraph i) (d.tree.span i) ∨
      (d.tree.kind i).isElastic = false ∧ aside i (d.tree.data i) (d.tree.span i)
  parents : ∀ i p : Nat, d.tree.parent i = some p → (d.tree.kind p).isElastic = true
  listed : ∀ t ∈ tokens, t.kind = .blockExpression →
    ∃ i s inner isInline, d.tree.data i = .expressionStatement s inner isInline ∧
      t.Embraces text s (d.tree.span i)

/-! ## Ways of working on a draft -/

/-- What is reported, which node is open, and what is remembered of an end tag does not matter. -/
theorem Tells.of_tree {d' : Draft} (h : d.Tells text tokens aside) (htree : d'.tree = d.tree) :
    d'.Tells text tokens aside := by
  obtain ⟨node, parents, listed⟩ := h
  rw [← htree] at node parents listed
  exact ⟨node, parents, listed⟩

/-- A token that is no expression is read. -/
theorem Tells.read (h : d.Tells text tokens aside) (hkind : t.kind ≠ .blockExpression) :
    d.Tells text (tokens ++ [t]) aside := by
  refine ⟨fun i => (h.node i).imp_left fun hnode => hnode.mono (List.subset_append_left _ _),
    h.parents, fun u hu hexp => ?_⟩
  rcases List.mem_append.1 hu with hu | hu
  · exact h.listed u hu hexp
  · rw [List.mem_singleton.1 hu] at hexp
    exact absurd hexp hkind

/-- Other nodes may be set aside. -/
theorem Tells.refine (h : d.Tells text tokens aside)
    (haside : ∀ i : Nat, (d.tree.kind i).isElastic = false →
      aside i (d.tree.data i) (d.tree.span i) →
      (d.tree.data i).Tells text tokens (d.tree.InParagraph i) (d.tree.span i) ∨
        aside' i (d.tree.data i) (d.tree.span i)) : d.Tells text tokens aside' := by
  refine ⟨fun i => ?_, h.parents, h.listed⟩
  rcases h.node i with hnode | ⟨hrigid, hnode⟩
  · exact .inl hnode
  · exact (haside i hrigid hnode).imp_right fun hnode => ⟨hrigid, hnode⟩

theorem Tells.setData {i : Nat} {data : NodeData} (h : d.Tells text tokens aside)
    (hkind : data.kind = d.tree.kind i) (hexp : data.kind ≠ .expressionStatement)
    (hdata : data.Tells text tokens (d.tree.InParagraph i) (d.tree.span i) ∨
      data.kind.isElastic = false ∧ aside i data (d.tree.span i)) :
    (d.setData i data).Tells text tokens aside := by
  have hspan (j : Nat) : (d.setData i data).tree.span j = d.tree.span j := Tree.span_setData ..
  have hparent (j : Nat) : (d.setData i data).tree.parent j = d.tree.parent j :=
    Tree.parent_setData ..
  have hdatas (j : Nat) : (d.setData i data).tree.data j
      = if i = j ∧ j < d.tree.size then data else d.tree.data j := Tree.data_setData ..
  have hkinds (j : Nat) : (d.setData i data).tree.kind j = d.tree.kind j := by
    rw [Tree.kind, hdatas]
    split
    · next heq => rw [← heq.1, hkind]
    · rfl
  refine ⟨fun j => ?_, fun j p hp => ?_, fun u hu hu' => ?_⟩
  · rw [hspan, hkinds, hdatas, Tree.inParagraph_congr hkinds hparent]
    split
    · next heq =>
      rw [← heq.1, ← hkind]
      exact hdata
    · exact h.node j
  · rw [hparent] at hp
    rw [hkinds]
    exact h.parents j p hp
  · obtain ⟨j, s, inner, isInline, hj, hembraces⟩ := h.listed u hu hu'
    refine ⟨j, s, inner, isInline, ?_, by rwa [hspan]⟩
    rw [hdatas, if_neg, hj]
    rintro ⟨rfl, _⟩
    refine hexp (hkind.trans ?_)
    rw [Tree.kind, hj]
    rfl

/-- The end of a node moves: of one that is elastic, or of one that is set aside. -/
theorem Tells.setSpan {i : Nat} (h : d.Tells text tokens aside) (span : Span)
    (hfree : (d.tree.kind i).isElastic = true ∨
      (d.tree.kind i).closing?.isSome = true ∧ aside i (d.tree.data i) span) :
    ({ d with tree := d.tree.setSpan i span } : Draft).Tells text tokens aside := by
  have hdata (j : Nat) : (d.tree.setSpan i span).data j = d.tree.data j := Tree.data_setSpan ..
  have hkind (j : Nat) : (d.tree.setSpan i span).kind j = d.tree.kind j := by
    rw [Tree.kind, hdata]
    rfl
  have hparent (j : Nat) : (d.tree.setSpan i span).parent j = d.tree.parent j :=
    Tree.parent_setSpan ..
  have hrigid {kind : NodeKind} (hclosing : kind.closing?.isSome = true) :
      kind.isElastic = false := by
    cases kind <;> first | rfl | simp [NodeKind.closing?] at hclosing
  refine ⟨fun j => ?_, fun j p hp => ?_, fun u hu hu' => ?_⟩
  · dsimp only
    rw [hdata, hkind, Tree.inParagraph_congr hkind hparent, Tree.span_setSpan]
    split
    · next heq =>
      obtain ⟨rfl, _⟩ := heq
      rcases hfree with helastic | ⟨hclosing, haside⟩
      · rcases h.node i with hnode | ⟨hno, _⟩
        · exact .inl (hnode.of_elastic helastic)
        · rw [helastic] at hno
          simp at hno
      · exact .inr ⟨hrigid hclosing, haside⟩
    · exact h.node j
  · dsimp only at hp ⊢
    rw [hparent] at hp
    rw [hkind]
    exact h.parents j p hp
  · obtain ⟨j, s, inner, isInline, hj, hembraces⟩ := h.listed u hu hu'
    refine ⟨j, s, inner, isInline, (hdata j).trans hj, ?_⟩
    dsimp only
    rw [Tree.span_setSpan, if_neg]
    · exact hembraces
    · rintro ⟨rfl, _⟩
      rw [Tree.kind, hj] at hfree
      simp [NodeData.kind, NodeKind.isElastic, NodeKind.closing?] at hfree

/-- **A new child of the open node**, which may be the node of an expression that is read now. -/
theorem Tells.sprout {data : NodeData} {span : Span} (h : d.Tells text tokens aside)
    (hshape : d.tree.Shape d.current) (hcurrent : d.currentKind.isElastic = true)
    (hmore : tokens ⊆ more)
    (hdata : data.Tells text more (d.currentKind = .paragraph) span ∨
      data.kind.isElastic = false ∧ aside d.tree.size data span)
    (hlisted : ∀ t ∈ more, t.kind = .blockExpression → t ∈ tokens ∨
      ∃ s inner isInline, data = .expressionStatement s inner isInline ∧ t.Embraces text s span) :
    ({ d with tree := d.tree.sprout data span d.current } : Draft).Tells text more aside := by
  have hlt := hshape.edge_lt
  have hparent (j : Nat) : (d.tree.sprout data span d.current).parent j
      = if j = d.tree.size then some d.current else d.tree.parent j := Tree.parent_sprout hlt j
  have hdatas (j : Nat) : (d.tree.sprout data span d.current).data j
      = if j = d.tree.size then data else d.tree.data j := Tree.data_sprout hlt j
  have hkind {j : Nat} (hj : j < d.tree.size) :
      (d.tree.sprout data span d.current).kind j = d.tree.kind j := by
    rw [Tree.kind, hdatas, if_neg (Nat.ne_of_lt hj)]
    rfl
  -- what has a parent in the old tree is old, and so is the parent
  have hold {j p : Nat} (hp : d.tree.parent j = some p) : p < d.tree.size :=
    Nat.lt_trans (hshape.parent_lt hp) (Tree.lt_size_of_parent hp)
  have hinside (j : Nat) (hj : j ≠ d.tree.size) :
      (d.tree.sprout data span d.current).InParagraph j ↔ d.tree.InParagraph j := by
    unfold Tree.InParagraph
    rw [hparent, if_neg hj]
    refine exists_congr fun p => and_congr_right fun hp => ?_
    rw [hkind (hold hp)]
  have hnew : (d.tree.sprout data span d.current).InParagraph d.tree.size ↔
      d.currentKind = .paragraph := by
    unfold Tree.InParagraph
    rw [hparent, if_pos rfl]
    constructor
    · rintro ⟨p, hp, hparagraph⟩
      rw [Option.some.injEq] at hp
      rwa [← hp, hkind hlt] at hparagraph
    · exact fun hparagraph => ⟨d.current, rfl, (hkind hlt).trans hparagraph⟩
  refine ⟨fun j => ?_, fun j p hp => ?_, fun u hu hu' => ?_⟩
  · dsimp only
    by_cases hj : j = d.tree.size
    · rw [Tree.kind, hdatas, Tree.span_sprout hlt, if_pos hj, if_pos hj, hj, hnew]
      exact hdata
    · rw [Tree.kind, hdatas, Tree.span_sprout hlt, if_neg hj, if_neg hj, hinside j hj]
      exact (h.node j).imp_left fun hnode => hnode.mono hmore
  · dsimp only at hp ⊢
    rw [hparent] at hp
    split at hp
    · rw [← Option.some.inj hp, hkind hlt]
      exact hcurrent
    · rw [hkind (hold hp)]
      exact h.parents j p hp
  · dsimp only
    rcases hlisted u hu hu' with hu | ⟨s, inner, isInline, hexp, hembraces⟩
    · obtain ⟨j, s, inner, isInline, hj, hembraces⟩ := h.listed u hu hu'
      -- a node that stands for an expression is there already
      have hne : j ≠ d.tree.size := by
        rintro rfl
        rw [Tree.data_of_size_le (Nat.le_refl _)] at hj
        simp at hj
      refine ⟨j, s, inner, isInline, ?_, ?_⟩
      · rw [hdatas, if_neg hne, hj]
      · rw [Tree.span_sprout hlt, if_neg hne]
        exact hembraces
    · refine ⟨d.tree.size, s, inner, isInline, ?_, ?_⟩
      · rw [hdatas, if_pos rfl, hexp]
      · rw [Tree.span_sprout hlt, if_pos rfl]
        exact hembraces

/-! ## Settled drafts -/

/-- Nothing is left to say, but of nodes that are set aside; and what is open is none of them. -/
structure Settled (text : Text) (tokens : List Token) (aside : Nat → NodeData → Span → Prop)
    (d : Draft) : Prop where
  tells : d.Tells text tokens aside
  current : d.currentKind.isElastic = true

theorem Settled.of_tree {d' : Draft} (h : d.Settled text tokens aside) (htree : d'.tree = d.tree)
    (hcurrent : d'.current = d.current) : d'.Settled text tokens aside := by
  refine ⟨h.tells.of_tree htree, ?_⟩
  rw [Draft.currentKind, htree, hcurrent]
  exact h.current

theorem Settled.read (h : d.Settled text tokens aside) (hkind : t.kind ≠ .blockExpression) :
    d.Settled text (tokens ++ [t]) aside :=
  ⟨h.tells.read hkind, h.current⟩

theorem Settled.report (h : d.Settled text tokens aside) (error : ParseError) (span : Span) :
    (d.report error span).Settled text tokens aside :=
  h.of_tree rfl rfl

/-- What an elastic node says of itself is true wherever it ends. -/
theorem Tells.of_elastic {i : Nat} {data : NodeData} (h : d.Tells text tokens aside)
    (hdata : d.tree.data i = data) (helastic : data.kind.isElastic = true) (inParagraph : Prop)
    (span : Span) : data.Tells text tokens inParagraph span := by
  have hnode := h.node i
  rw [Tree.kind, hdata, helastic] at hnode
  exact (hnode.resolve_right fun hrigid => by simp at hrigid).of_elastic helastic

/-- An elastic node may change as long as its kind does not. -/
theorem Tells.setElastic {i : Nat} {data : NodeData} (h : d.Tells text tokens aside)
    (hkind : data.kind = d.tree.kind i) (helastic : data.kind.isElastic = true)
    (hdata : data.Tells text tokens (d.tree.InParagraph i) (d.tree.span i)) :
    (d.setData i data).Tells text tokens aside := by
  refine h.setData hkind (fun hexp => ?_) (.inl hdata)
  rw [hexp] at helastic
  simp [NodeKind.isElastic] at helastic

theorem kind_setData {i : Nat} {data : NodeData} (hkind : data.kind = d.tree.kind i) (j : Nat) :
    (d.setData i data).tree.kind j = d.tree.kind j := by
  show ((d.tree.setData i data).data j).kind = _
  rw [Tree.data_setData]
  split
  · next heq => rw [← heq.1, hkind]
  · rfl

theorem Settled.setElastic {i : Nat} {data old : NodeData} (h : d.Settled text tokens aside)
    (hold : d.tree.data i = old) (hkind : data.kind = old.kind)
    (helastic : old.kind.isElastic = true)
    (hdata : data.Tells text tokens (d.tree.InParagraph i) (d.tree.span i)) :
    (d.setData i data).Settled text tokens aside := by
  have hkind' : data.kind = d.tree.kind i := hkind.trans (Tree.kind_of_data hold).symm
  refine ⟨h.tells.setElastic hkind' (hkind ▸ helastic) hdata, ?_⟩
  show ((d.setData i data).tree.kind d.current).isElastic = true
  rw [kind_setData hkind']
  exact h.current

/-- An element may change in all but the beginning of its end tag. -/
theorem Settled.setElement {i : Nat} {e e' : Element} (h : d.Settled text tokens aside)
    (hdata : d.tree.data i = .element e) (hsame : e'.endTagStart = e.endTagStart) :
    (d.setData i (.element e')).Settled text tokens aside := by
  refine h.setElastic hdata rfl rfl fun n hn => ?_
  have helement := h.tells.of_elastic hdata rfl (d.tree.InParagraph i) (d.tree.span i)
  exact helement n (hsame ▸ hn)

theorem Settled.setSpan {i : Nat} (h : d.Settled text tokens aside)
    (helastic : (d.tree.kind i).isElastic = true) (span : Span) :
    ({ d with tree := d.tree.setSpan i span } : Draft).Settled text tokens aside := by
  refine ⟨h.tells.setSpan span (.inl helastic), ?_⟩
  rw [Draft.currentKind, Tree.kind, Tree.data_setSpan]
  exact h.current

theorem Settled.extend (h : d.Settled text tokens aside) (stop : Nat) :
    (d.extend stop).Settled text tokens aside :=
  h.setSpan h.current _

/-- What is left for its parent leaves nothing to say behind. -/
theorem Tells.ascend {p : Nat} (h : d.Tells text tokens aside)
    (hp : d.tree.parent d.current = some p) : d.ascend.Settled text tokens aside := by
  have hup : ({ d with current := p } : Draft).Settled text tokens aside :=
    ⟨h.of_tree rfl, h.parents _ _ hp⟩
  unfold Draft.ascend
  rw [hp]
  exact hup.setSpan hup.current _

theorem Settled.ascend (h : d.Settled text tokens aside) : d.ascend.Settled text tokens aside := by
  rcases d.tree.parent_cases d.current with hp | ⟨p, hp⟩
  · unfold Draft.ascend
    rw [hp]
    exact h
  · exact h.tells.ascend hp

theorem Settled.close (h : d.Settled text tokens aside) (stop : Nat) :
    (d.close stop).Settled text tokens aside :=
  (h.setSpan h.current _).ascend

/-- A new node of which all is said at once. -/
theorem Settled.leaf {data : NodeData} {span : Span} (h : d.Settled text tokens aside)
    (hshape : d.tree.Shape d.current)
    (hdata : data.Tells text tokens (d.currentKind = .paragraph) span) :
    (d.leaf data span).Settled text tokens aside := by
  have hsprout : ({ d with tree := d.tree.sprout data span d.current } : Draft).Tells text tokens
      aside :=
    h.tells.sprout hshape h.current (List.Subset.refl _) (.inl hdata) fun t ht _ => .inl ht
  have hcurrent : ({ d with tree := d.tree.sprout data span d.current } : Draft).currentKind
      = d.currentKind := by
    rw [Draft.currentKind, Tree.kind, Tree.data_sprout hshape.edge_lt,
      if_neg (Nat.ne_of_lt hshape.edge_lt)]
    rfl
  exact Settled.extend ⟨hsprout, hcurrent ▸ h.current⟩ _

theorem Settled.openNode {data : NodeData} {span : Span} (h : d.Settled text tokens aside)
    (hshape : d.tree.Shape d.current) (helastic : data.kind.isElastic = true)
    (hdata : data.Tells text tokens (d.currentKind = .paragraph) span) :
    (d.openNode data span).Settled text tokens aside := by
  refine ⟨(h.leaf hshape hdata).tells.of_tree rfl, ?_⟩
  rw [show (d.openNode data span).currentKind = data.kind from
    Tree.kind_of_data (currentData_openNode data span hshape.edge_lt)]
  exact helastic

/-! ## Closing what nothing closed -/

theorem Settled.setEndTagStart (h : d.Settled text tokens aside) (i : Nat) {start : Nat}
    (hstart : isBoundary start text = true) :
    (d.setEndTagStart i start).Settled text tokens aside := by
  unfold Draft.setEndTagStart
  split
  · next e heq =>
    refine h.setElastic heq rfl rfl fun n hn => ?_
    exact Option.some.inj hn ▸ hstart
  · exact h

theorem Settled.supplyEndTagStart (h : d.Settled text tokens aside) {stop : Nat}
    (hstop : isBoundary stop text = true) :
    (d.supplyEndTagStart stop).Settled text tokens aside := by
  unfold Draft.supplyEndTagStart
  split
  · next e heq =>
    refine h.setElastic heq rfl rfl fun n hn => ?_
    have helement := h.tells.of_elastic heq rfl (d.tree.InParagraph d.current)
      (d.tree.span d.current)
    -- an end tag that was read comes first
    cases hend : e.endTagStart with
    | none =>
      rw [hend, Option.none_or] at hn
      exact Option.some.inj hn ▸ hstop
    | some m =>
      rw [hend, Option.some_or] at hn
      exact Option.some.inj hn ▸ helement m hend
  · exact h

theorem Settled.closeUnterminated (h : d.Settled text tokens aside) (stop : Nat) :
    (d.closeUnterminated stop).Settled text tokens aside := by
  unfold Draft.closeUnterminated
  dsimp only
  refine Settled.close ?_ stop
  split
  · next e heq =>
    refine Settled.report ?_ _ _
    exact h.setElement heq rfl
  · exact h.report _ _
  · split
    · exact h.report _ _
    · exact h

theorem Settled.closeDownTo (target fuel : Nat) {start : Nat}
    (hstart : isBoundary start text = true) : ∀ {d : Draft}, d.Settled text tokens aside →
      (Draft.closeDownTo target start fuel d).Settled text tokens aside := by
  induction fuel with
  | zero => exact fun h => h
  | succ fuel ih =>
    intro d h
    unfold Draft.closeDownTo
    split
    · exact h
    · exact ih ((h.setEndTagStart d.current hstart).closeUnterminated start)

theorem Settled.finishIn (fuel : Nat) {stop : Nat} (hstop : isBoundary stop text = true) :
    ∀ {d : Draft}, d.Settled text tokens aside →
      (Draft.finishIn fuel stop d).Settled text tokens aside := by
  induction fuel with
  | zero => exact fun h => h
  | succ fuel ih =>
    intro d h
    unfold Draft.finishIn
    split
    · exact h
    · exact ih ((h.supplyEndTagStart hstop).closeUnterminated stop)

/-! ## One token -/

theorem Settled.leaveAttribute (h : d.Settled text tokens aside) :
    d.leaveAttribute.Settled text tokens aside := by
  unfold Draft.leaveAttribute
  split
  · exact h.ascend
  · exact h.ascend
  · exact h

/-- A value that is read or widened is noted together with its place. -/
theorem Settled.attributeValue (h : d.Settled text tokens aside) (span : Span) :
    (d.attributeValue span).Settled text tokens aside := by
  unfold Draft.attributeValue
  dsimp only
  split
  · next a hdata =>
    refine Settled.extend ?_ _
    exact h.setElastic hdata rfl rfl rfl
  · next a hdata =>
    refine Settled.extend ?_ _
    exact h.setElastic hdata rfl rfl rfl
  · exact h

theorem Settled.codeBlockAttribute (h : d.Settled text tokens aside) :
    (d.codeBlockAttribute t).Settled text tokens aside := by
  unfold Draft.codeBlockAttribute
  split
  · next block hdata =>
    have hset (block' : CodeBlock) : (d.setCurrent (.codeBlock block')).Settled text tokens aside :=
      h.setElastic hdata rfl rfl trivial
    refine Settled.extend ?_ _
    dsimp only
    split
    · exact hset _
    · split
      · exact (hset _).report _ _
      · exact hset _
  · exact h

theorem Settled.codeBlockContent (h : d.Settled text tokens aside) :
    (d.codeBlockContent t).Settled text tokens aside := by
  unfold Draft.codeBlockContent
  refine Settled.extend ?_ _
  split
  · next block hdata => exact h.setElastic hdata rfl rfl trivial
  · exact h

theorem Settled.codeBlockEnd (h : d.Settled text tokens aside) :
    (d.codeBlockEnd t).Settled text tokens aside := by
  unfold Draft.codeBlockEnd
  split
  · next block hdata =>
    refine Settled.close ?_ _
    split
    · exact h.setElastic hdata rfl rfl trivial
    · exact h
  · exact h

/-- A text of prose repeats what it covers, whether or not it opens a paragraph. -/
theorem Settled.proseText (h : d.Settled text tokens aside) (hl : d.Laid text pos)
    (ht : t.Reads text pos pos') : (d.proseText t).Settled text tokens aside := by
  have hopen : (d.openNode .paragraph t.span).Settled text tokens aside :=
    h.openNode hl.shape rfl trivial
  have hshape := (hl.openNode .paragraph ht (NodeData.fits_of_nil rfl _)).shape
  unfold Draft.proseText
  dsimp only
  split
  · exact h.leaf hl.shape ht.lexeme
  · exact hopen.leaf hshape ht.lexeme

theorem Settled.startTag (h : d.Settled text tokens aside) :
    (d.startTag t).Settled text tokens aside := by
  unfold Draft.startTag
  refine Settled.extend ?_ _
  split
  · next e hdata => exact h.setElement hdata rfl
  · exact h

theorem Settled.startTagClose (h : d.Settled text tokens aside) :
    (d.startTagClose t).Settled text tokens aside := by
  have hleave := h.leaveAttribute
  unfold Draft.startTagClose
  dsimp only
  split
  · next e hdata =>
    have hset : (d.leaveAttribute.setCurrent
        (.element { e with startTagEnd := some t.span.stop })).Settled text tokens aside :=
      hleave.setElement hdata rfl
    split
    · exact hset.close _
    · exact hset.extend _
  · exact hleave.extend _

theorem Settled.startTagSelfClose (h : d.Settled text tokens aside) :
    (d.startTagSelfClose t).Settled text tokens aside := by
  have hleave := h.leaveAttribute
  unfold Draft.startTagSelfClose
  dsimp only
  split
  · next e hdata =>
    refine Settled.close ?_ _
    exact hleave.setElement hdata rfl
  · exact hleave

theorem Settled.attributeName {data : NodeData} (h : d.Settled text tokens aside)
    (hshape : d.leaveAttribute.tree.Shape d.leaveAttribute.current)
    (helastic : data.kind.isElastic = true)
    (hdata : data.Tells text tokens (d.leaveAttribute.currentKind = .paragraph) t.span) :
    (d.attributeName t data).Settled text tokens aside := by
  have hopen := h.leaveAttribute.openNode hshape helastic hdata
  unfold Draft.attributeName
  dsimp only
  split
  · exact hopen.report _ _
  · exact hopen

theorem Settled.endTagClose (h : d.Settled text tokens aside)
    (hstart : isBoundary d.endTagStart text = true) (stop : Nat) :
    (d.endTagClose stop).Settled text tokens aside := by
  have hnext : ({ d with endTagName := none } : Draft).Settled text tokens aside :=
    h.of_tree rfl rfl
  unfold Draft.endTagClose
  split
  · exact h
  · dsimp only
    split
    · exact hnext.report _ _
    · next target _ =>
      exact ((hnext.closeDownTo target d.tree.size hstart).setEndTagStart target hstart).close stop

/-- **An expression** is a node of its own, and it is inline where a paragraph is open. -/
theorem Settled.blockExpression (h : d.Settled text tokens aside) (hshape : d.tree.Shape d.current)
    (ht : t.Reads text pos pos') (hkind : t.kind = .blockExpression)
    (hlexeme : t.error = none → ∃ s, t.lexeme = '{' :: s ++ ['}']) :
    (d.blockExpression t).Settled text (tokens ++ [t]) aside := by
  have hexpression (s : Text) (inner : Span) (hs : t.error = none → t.lexeme = '{' :: s ++ ['}']) :
      (d.leaf (.expressionStatement s inner (d.currentKind == .paragraph)) t.span).Settled text
        (tokens ++ [t]) aside := by
    have hembraces : t.Embraces text s t.span := ⟨hkind, rfl, fun hnone => ht.lexeme ▸ hs hnone⟩
    have hlast : t ∈ tokens ++ [t] := List.mem_append_right _ (List.mem_singleton_self t)
    have hsprout : ({ d with
        tree := d.tree.sprout (.expressionStatement s inner (d.currentKind == .paragraph)) t.span
          d.current } : Draft).Tells text (tokens ++ [t]) aside := by
      refine h.tells.sprout hshape h.current (List.subset_append_left _ _)
        (.inl ⟨beq_iff_eq, t, hlast, hembraces⟩) fun u hu _ => ?_
      rcases List.mem_append.1 hu with hu | hu
      · exact .inl hu
      · rw [List.mem_singleton.1 hu]
        exact .inr ⟨s, inner, _, rfl, hembraces⟩
    refine Settled.extend ⟨hsprout, ?_⟩ _
    rw [Draft.currentKind, Tree.kind, Tree.data_sprout hshape.edge_lt,
      if_neg (Nat.ne_of_lt hshape.edge_lt)]
    exact h.current
  unfold Draft.blockExpression
  dsimp only
  split
  · next hnone =>
    obtain ⟨s, hs⟩ := hlexeme (Option.isNone_iff_eq_none.1 hnone)
    have hinner : (t.lexeme.drop 1).dropLast = s := by
      rw [hs, List.cons_append, List.drop_one, List.tail_cons, List.dropLast_concat]
    rw [hinner]
    exact hexpression s _ fun _ => hs
  · next hsome => exact hexpression _ _ fun hnone => absurd (hnone ▸ rfl) hsome

/-- **A token leaves everything settled**, unless it is about a comment or a mustache. -/
theorem Settled.build (h : d.Settled text tokens aside) (hl : d.Laid text pos)
    (ha : d.Aligned text pos) (ht : t.Reads text pos pos')
    (hlexeme : t.kind = .blockExpression → t.error = none → ∃ s, t.lexeme = '{' :: s ++ ['}'])
    (hkind : t.kind.isEnclosing = false) : (d.build t).Settled text (tokens ++ [t]) aside := by
  by_cases hexp : t.kind = .blockExpression
  · simp only [Draft.build, hexp]
    exact h.blockExpression hl.shape ht hexp (hlexeme hexp)
  replace h := h.read hexp
  have hshape := hl.shape
  unfold Draft.build
  split
  case h_1 | h_2 | h_3 => exact h
  case h_4 hk | h_5 hk | h_6 hk | h_28 hk | h_29 hk | h_30 hk =>
    rw [hk] at hkind
    simp [TokenKind.isEnclosing] at hkind
  case h_7 =>
    split
    · unfold Draft.templateText
      split
      · exact h
      · exact h.leaf hshape ht.lexeme
    · exact h.proseText hl ht
  case h_8 =>
    unfold Draft.paragraphEnd
    split
    · exact h.close _
    · exact h
  case h_9 => exact h.openNode hshape rfl trivial
  case h_10 => exact h.codeBlockAttribute
  case h_11 => exact h.codeBlockContent
  case h_12 => exact h.codeBlockEnd
  case h_13 | h_14 | h_31 => exact h.leaf hshape ht.lexeme
  case h_15 hk => exact absurd hk hexp
  case h_16 =>
    refine h.leaveAttribute.openNode hl.leaveAttribute.shape rfl fun n hn => ?_
    simp at hn
  case h_17 => exact h.startTag
  case h_18 => exact h.startTagClose
  case h_19 => exact h.startTagSelfClose
  case h_20 => exact h.leaveAttribute.of_tree rfl rfl
  case h_21 => exact h.of_tree rfl rfl
  case h_22 => exact h.endTagClose ha.endTag _
  case h_23 => exact h.attributeName hl.leaveAttribute.shape rfl rfl
  case h_24 =>
    refine h.attributeName hl.leaveAttribute.shape rfl ?_
    show (Directive.ofRaw t.lexeme).value.isSome = (Directive.ofRaw t.lexeme).valueSpan.isSome
    rw [TemplateArtifact.value_ofRaw, TemplateArtifact.valueSpan_ofRaw]
    rfl
  case h_25 | h_26 => exact h.extend _
  case h_27 => exact h.attributeValue _

/-! ## Comments and mustaches -/

/-- A comment or a mustache is open, and all that was read of it is in the node. All other nodes are
settled, and nothing that was read before closes it. -/
structure Pending (text : Text) (tokens : List Token) (pos : Nat) (d : Draft) : Prop where
  tells : d.Tells text tokens fun i _ _ => i = d.current
  begun : d.currentData.begun? = some (slice text (d.tree.span d.current))
  stop : (d.tree.span d.current).stop = pos
  unclosed : ∀ t ∈ tokens, ∀ mark, d.currentKind.closing? = some (t.kind, mark) →
    t.span.stop ≤ (d.tree.span d.current).start

theorem Pending.isSome_closing (h : d.Pending text tokens pos) :
    d.currentKind.closing?.isSome = true := by
  rcases NodeData.kind_of_begun h.begun with hkind | hkind <;>
    rw [show d.currentKind = _ from hkind] <;> rfl

/-- A node that has just been opened covers what it was opened for. -/
theorem span_openNode (data : NodeData) (span : Span) (hcurrent : d.current < d.tree.size) :
    (d.openNode data span).tree.span (d.openNode data span).current = span := by
  show ((d.tree.sprout data span d.current).setSpan _ _).span d.tree.size = span
  rw [Tree.span_setSpan, if_neg fun hand => Nat.ne_of_lt hcurrent hand.1,
    Tree.span_sprout hcurrent, if_pos rfl]

/-- An opening mark is all that there is of a node so far. -/
theorem Settled.openPending {data : NodeData} (h : d.Settled text tokens fun _ _ _ => False)
    (hshape : d.tree.Shape d.current) (ht : t.Reads text pos pos')
    (hdata : data.begun? = some t.lexeme) (hkind : t.kind ≠ .blockExpression)
    (hmark : ∀ mark, data.kind.closing? ≠ some (t.kind, mark))
    (hbehind : ∀ u ∈ tokens, u.span.stop ≤ pos) :
    (d.openNode data t.span).Pending text (tokens ++ [t]) pos' := by
  have hlt := hshape.edge_lt
  have hrigid : data.kind.isElastic = false := by
    rcases NodeData.kind_of_begun hdata with hk | hk <;> rw [hk] <;> rfl
  have haside : d.Tells text (tokens ++ [t]) fun i _ _ => i = d.tree.size :=
    (h.tells.read hkind).refine fun _ _ hfalse => hfalse.elim
  have hsprout : ({ d with tree := d.tree.sprout data t.span d.current } : Draft).Tells text
      (tokens ++ [t]) fun i _ _ => i = d.tree.size :=
    haside.sprout hshape h.current (List.Subset.refl _) (.inr ⟨hrigid, rfl⟩) fun u hu _ => .inl hu
  have hcurrent : ((d.tree.sprout data t.span d.current).kind d.current).isElastic = true := by
    rw [Tree.kind, Tree.data_sprout hlt, if_neg (Nat.ne_of_lt hlt)]
    exact h.current
  have hspan := span_openNode data t.span hlt
  have hopen : (d.openNode data t.span).currentData = data := currentData_openNode data t.span hlt
  refine ⟨(hsprout.setSpan _ (.inl hcurrent)).of_tree rfl, ?_, ?_, fun u hu mark hclosing => ?_⟩
  · rw [hopen, hspan, hdata, ht.lexeme]
  · rw [hspan, ht.stop]
  · have hkind : (d.openNode data t.span).currentKind = data.kind := congrArg NodeData.kind hopen
    rw [hkind] at hclosing
    rw [hspan, ht.start]
    rcases List.mem_append.1 hu with hu | hu
    · exact hbehind u hu
    · rw [List.mem_singleton.1 hu] at hclosing
      exact absurd hclosing (hmark mark)

/-- **More of the content is read.** -/
theorem Pending.fill {data : NodeData} (h : d.Pending text tokens pos)
    (ha : d.Aligned text pos) (hcurrent : d.current < d.tree.size) (ht : t.Reads text pos pos')
    (hkind : data.kind = d.currentKind)
    (hbegun : data.begun? = some (slice text (d.tree.span d.current) ++ t.lexeme))
    (hexp : t.kind ≠ .blockExpression)
    (hmark : ∀ mark, d.currentKind.closing? ≠ some (t.kind, mark)) :
    ((d.setCurrent data).extend t.span.stop).Pending text (tokens ++ [t]) pos' := by
  have hrigid : data.kind.isElastic = false := by
    rcases NodeData.kind_of_begun hbegun with hk | hk <;> rw [hk] <;> rfl
  have hnoexp : data.kind ≠ .expressionStatement := by
    rcases NodeData.kind_of_begun hbegun with hk | hk <;> rw [hk] <;> decide
  have hset := (h.tells.read hexp).setData hkind hnoexp (.inr ⟨hrigid, rfl⟩)
  have hkind' : (d.setCurrent data).tree.kind d.current = d.currentKind := kind_setData hkind _
  have hspan : ((d.setCurrent data).extend t.span.stop).tree.span d.current
      = ⟨(d.tree.span d.current).start, t.span.stop⟩ := by
    have hle : (d.tree.span d.current).stop ≤ t.span.stop := by rw [h.stop, ht.stop]; exact ht.le
    show ((d.tree.setData d.current data).setSpan d.current _).span d.current = _
    rw [Tree.span_setSpan, Tree.size_setData, if_pos ⟨rfl, hcurrent⟩]
    show ((d.tree.setData d.current data).span d.current).growTo t.span.stop = _
    rw [Tree.span_setData, Span.growTo, Nat.max_eq_right hle]
  have hdata : ((d.setCurrent data).extend t.span.stop).currentData = data := by
    rw [currentData_extend, currentData_setCurrent data hcurrent]
  have hslice := (ha.spans d.current).1.slice_append ht.cuts (ht.start.trans h.stop.symm)
  refine ⟨hset.setSpan _ (.inr ⟨?_, rfl⟩), ?_, ?_, fun u hu mark hclosing => ?_⟩
  · exact (congrArg (·.closing?.isSome) hkind').trans h.isSome_closing
  · rw [hdata, hbegun, ht.lexeme]
    exact congrArg some (hslice.symm.trans (congrArg _ hspan.symm))
  · exact (congrArg Span.stop hspan).trans ht.stop
  · have hsame : ((d.setCurrent data).extend t.span.stop).currentKind = d.currentKind :=
      (congrArg NodeData.kind hdata).trans hkind
    rw [hsame] at hclosing
    refine Nat.le_trans ?_ (Nat.le_of_eq (congrArg Span.start hspan).symm)
    rcases List.mem_append.1 hu with hu | hu
    · exact h.unclosed u hu mark hclosing
    · rw [List.mem_singleton.1 hu] at hclosing
      exact absurd hclosing (hmark mark)

/-- **The closing mark is read**, and nothing is left to say. -/
theorem Pending.close {p : Nat} {mark : Text} (h : d.Pending text tokens pos)
    (ha : d.Aligned text pos) (hcurrent : d.current < d.tree.size)
    (hp : d.tree.parent d.current = some p) (ht : t.Reads text pos pos')
    (hclosing : d.currentKind.closing? = some (t.kind, mark)) (hlexeme : t.lexeme = mark)
    (hexp : t.kind ≠ .blockExpression) :
    (d.close t.span.stop).Settled text (tokens ++ [t]) fun _ _ _ => False := by
  have hstart : (d.tree.span d.current).start ≤ t.span.stop := by
    have hordered := (ha.spans d.current).1.ordered
    have hle := ht.le
    rw [h.stop] at hordered
    rw [ht.stop]
    omega
  have hmoved := (h.tells.read hexp).setSpan
    ⟨(d.tree.span d.current).start, max t.span.stop (d.tree.span d.current).start⟩
    (.inr ⟨h.isSome_closing, rfl⟩)
  have hslice := (ha.spans d.current).1.slice_append ht.cuts (ht.start.trans h.stop.symm)
  refine Tells.ascend (p := p) (hmoved.refine fun i _ hi => ?_) ?_
  · obtain rfl : i = d.current := hi
    dsimp only
    rw [Tree.data_setSpan, Tree.span_setSpan, if_pos ⟨rfl, hcurrent⟩, Nat.max_eq_left hstart]
    refine .inl (NodeData.tells_of_closed h.begun hclosing ?_ ⟨t, ?_, rfl, rfl⟩)
    · rw [hslice, ← ht.lexeme, hlexeme]
    · exact List.mem_append_right _ (List.mem_singleton_self t)
  · exact (Tree.parent_setSpan ..).trans hp

/-! ## The end of the document -/

/-- A node that has an opening mark only ends with the document. -/
def CutShort (text : Text) (tokens : List Token) (_ : Nat) (data : NodeData) (span : Span) : Prop :=
  span.stop = size text ∧ ∃ kind mark, data.kind.closing? = some (kind, mark) ∧
    ¬ span.EndsIn kind tokens

/-- What has an opening mark is reported where nothing closes it, and then closed. -/
theorem closeUnterminated_of_begun {begun : Text} (h : d.currentData.begun? = some begun)
    (stop : Nat) : ∃ error span,
      (d.supplyEndTagStart stop).closeUnterminated stop = (d.report error span).close stop := by
  cases hdata : d.currentData <;> rw [hdata] at h <;> simp [NodeData.begun?] at h
  · refine ⟨.tagUnclosed, ⟨(d.tree.span d.current).start, stop⟩, ?_⟩
    simp only [Draft.supplyEndTagStart, Draft.closeUnterminated, hdata]
    rfl
  · refine ⟨.mustacheEndExpected, ⟨(d.tree.span d.current).start, stop⟩, ?_⟩
    simp only [Draft.supplyEndTagStart, Draft.closeUnterminated, hdata]

/-- A comment or mustache that nothing closed goes on to the end. -/
theorem Pending.closeUnterminated {p : Nat} (h : d.Pending text tokens pos)
    (ha : d.Aligned text pos) (hcurrent : d.current < d.tree.size)
    (hp : d.tree.parent d.current = some p) (hpos : pos ≤ size text) :
    ((d.supplyEndTagStart (size text)).closeUnterminated (size text)).Settled text tokens
      (CutShort text tokens) := by
  obtain ⟨error, span, hclose⟩ := closeUnterminated_of_begun h.begun (size text)
  have hcuts := (ha.spans d.current).1
  -- the opening mark is there, so the node has characters
  have hcovers : (d.tree.span d.current).start < (d.tree.span d.current).stop := by
    refine hcuts.covers_iff.2 fun hnil => ?_
    have hbegun := h.begun
    rw [hnil] at hbegun
    cases hdata : d.currentData <;> rw [hdata] at hbegun <;>
      simp [NodeData.begun?, commentOpening, mustacheOpening] at hbegun
  have hstop := h.stop
  rw [hclose]
  have hmoved := h.tells.setSpan
    ⟨(d.tree.span d.current).start, max (size text) (d.tree.span d.current).start⟩
    (.inr ⟨h.isSome_closing, rfl⟩)
  refine Tells.ascend (p := p) ((hmoved.refine fun i _ hi => ?_).of_tree rfl) ?_
  · obtain rfl : i = d.current := hi
    dsimp only
    rw [Tree.data_setSpan, Tree.span_setSpan, if_pos ⟨rfl, hcurrent⟩, Nat.max_eq_left (by omega)]
    obtain ⟨⟨kind, mark⟩, hclosing⟩ := Option.isSome_iff_exists.1 h.isSome_closing
    refine .inr ⟨rfl, kind, mark, hclosing, ?_⟩
    rintro ⟨t, ht, rfl, hend⟩
    have hunclosed := h.unclosed t ht mark hclosing
    rw [hend] at hunclosed
    dsimp only at hunclosed
    omega
  · exact (Tree.parent_setSpan ..).trans hp

/-- Where the parser stands in a document: everything is settled, or a comment or mustache is
open. -/
def Told (text : Text) (tokens : List Token) (pos : Nat) (d : Draft) : Prop :=
  d.Settled text tokens (fun _ _ _ => False) ∨ d.Pending text tokens pos

/-- **When the tokens are spent**, there is nothing left to say but of a node that is cut short. -/
theorem Told.finish (h : d.Told text tokens pos) (ha : d.Aligned text pos) (hl : d.Laid text pos) :
    d.finish.Tells text tokens (CutShort text tokens) := by
  unfold Draft.finish
  rw [hl.text_eq]
  rcases h with h | h
  · have hcut : d.Settled text tokens (CutShort text tokens) :=
      ⟨h.tells.refine fun _ _ hfalse => hfalse.elim, h.current⟩
    exact (hcut.finishIn d.tree.size (isBoundary_size text)).tells
  · have hroot : d.current ≠ Tree.root := by
      rintro hroot
      have hkind : d.currentKind = .root := by
        rw [Draft.currentKind, hroot]
        exact hl.root_kind
      have hclosing := h.isSome_closing
      rw [hkind] at hclosing
      simp [NodeKind.closing?] at hclosing
    obtain ⟨p, _, hp⟩ := hl.shape.older d.current (Nat.pos_of_ne_zero hroot) hl.shape.edge_lt
    have hclosed := h.closeUnterminated ha hl.shape.edge_lt hp hl.pos_le
    have hsize : d.tree.size = d.tree.size - 1 + 1 := by
      have hlt := hl.shape.edge_lt
      omega
    rw [hsize, Draft.finishIn, if_neg hroot]
    exact (hclosed.finishIn _ (isBoundary_size text)).tells

end Draft

/-! ## What the scanner reads of them -/

/-- How the marks of comments and mustaches are spelled. -/
def TokenKind.spelling? : TokenKind → Option Text
  | commentStart => some commentOpening
  | commentEnd => some commentClosing
  | mustacheStart => some mustacheOpening
  | mustacheEnd => some mustacheClosing
  | _ => none

namespace Memory

variable {dialect : Dialect} {before : Option Char} {m m' : Memory} {u rest : Text}
  {kind : TokenKind} {error : Option LexError}

theorem Yields.spelled {part : Text} (h : m.Yields dialect before u kind error rest m')
    (hkind : kind.spelling? = some part) : u = part ++ rest := by
  cases h with
  | commentStart _ read | commentEnd _ read | contentMustache _ _ read | valueMustache _ _ _ read
  | mustacheEnd _ read =>
    rw [TokenKind.spelling?, Option.some.injEq] at hkind
    exact hkind ▸ read
  | _ => simp [TokenKind.spelling?] at hkind

/-- In a comment or a mustache there is only its content and its end. -/
theorem Yields.of_enclosed (h : m.Yields dialect before u kind error rest m') :
    (m.state = .comment → kind = .commentContent ∨ kind = .commentEnd) ∧
      (m.state = .mustache → kind = .mustacheContent ∨ kind = .mustacheEnd) := by
  constructor
  · intro hcomment
    cases h with
    | rawText e state _ _ => cases e <;> simp_all
    | _ => simp_all
  · intro hmustache
    cases h with
    | rawText e state _ _ => cases e <;> simp_all
    | _ => simp_all

/-- A comment or a mustache is open in the context that is named after it only. -/
def Encloses (m : Memory) (kind : NodeKind) : Prop :=
  (kind = .comment → m.state = .comment) ∧ (kind = .mustache → m.state = .mustache)

theorem encloses_of_ne {kind : NodeKind} (hcomment : kind ≠ .comment)
    (hmustache : kind ≠ .mustache) : m.Encloses kind :=
  ⟨fun h => absurd h hcomment, fun h => absurd h hmustache⟩

end Memory

theorem ProseArtifacts.Synced.encloses {dialect : Dialect} {text rest : Text} {m : Memory}
    {pos : Nat} {deal : Deal} {d : Draft} (h : Synced dialect text m rest pos deal d) :
    m.Encloses d.currentKind := by
  have hkind {k : NodeKind} {path : List NodeKind} (hcomment : k ≠ .comment)
      (hmustache : k ≠ .mustache)
      (h : d.Stands pieces dialect text pos (k :: path) deal.pieces) : m.Encloses d.currentKind :=
    h.kind_eq ▸ Memory.encloses_of_ne hcomment hmustache
  unfold Synced at h
  split at h
  · exact hkind (by decide) (by decide) h
  · exact hkind (by decide) (by decide) h
  · next state =>
    refine ⟨fun _ => state, fun hmustache => ?_⟩
    rcases h with ⟨_, h⟩ | ⟨_, h⟩ <;> rw [h.kind_eq] at hmustache <;> simp at hmustache
  · exact hkind (by decide) (by decide) h.1
  · exact hkind (by decide) (by decide) h.1
  · exact h.elim

namespace TemplateArtifact

variable {text rest : Text} {m : Memory} {pos : Nat} {xs : List Piece} {d : Draft}

theorem Synced.encloses (h : Synced text m rest pos xs d) : m.Encloses d.currentKind := by
  have hnested {path : List NodeKind} (hn : Nested path)
      (h : d.Stands pieces .template text pos path xs) : m.Encloses d.currentKind := by
    rcases hn.current h with hkind | hkind <;> rw [hkind] <;>
      exact Memory.encloses_of_ne (by decide) (by decide)
  have hattribute (h : AttributeOpen text m rest pos xs d) : m.Encloses d.currentKind := by
    rcases h.current with hkind | hkind <;> rw [hkind] <;>
      exact Memory.encloses_of_ne (by decide) (by decide)
  unfold Synced at h
  split at h
  · exact hnested h.choose_spec.1 h.choose_spec.2
  · exact hnested h.choose_spec.1 h.choose_spec.2
  · exact hnested h.choose_spec.1 h.choose_spec.2
  · exact hnested h.choose_spec.1 h.choose_spec.2
  · exact hnested h.choose_spec.1 h.choose_spec.2
  · next state =>
    obtain ⟨_, path, _, h⟩ := h
    exact ⟨fun _ => state, fun hmustache => by rw [h.kind_eq] at hmustache; simp at hmustache⟩
  · obtain ⟨path, _, h⟩ := h
    exact h.kind_eq ▸ Memory.encloses_of_ne (by decide) (by decide)
  · obtain ⟨path, htag, h⟩ := h
    rcases htag.inStartTag h with hkind | ⟨hkind | hkind, _⟩ <;> rw [hkind] <;>
      exact Memory.encloses_of_ne (by decide) (by decide)
  · exact hattribute h
  · exact hattribute h
  · exact hattribute h
  · next state =>
    refine ⟨fun hcomment => ?_, fun _ => state⟩
    obtain ⟨_, path, _, ⟨_, h⟩ | ⟨_, _, h⟩⟩ := h <;> rw [h.kind_eq] at hcomment <;> simp at hcomment
  · exact h.elim

/-- Where code of a mustache is read, there was none before. -/
theorem Synced.mustache_empty (h : Synced text m rest pos xs d) (state : m.state = .mustache)
    (hrest : rest ≠ []) (here : startsWith mustacheClosing rest = false) :
    ∃ inner, d.currentData = .mustache [] inner := by
  simp only [Synced, state] at h
  obtain ⟨⟨_, code, inner, hdata, hopen⟩, path, _, h⟩ := h
  have hcovers : ¬ inner.Covers := by
    rcases hopen with hcovers | hnil | hclosing
    · exact hcovers
    · exact absurd hnil hrest
    · rw [here] at hclosing
      simp at hclosing
  have hsound : (NodeData.mustache code inner).Sound text (d.tree.span d.current) := by
    rcases h with ⟨_, h⟩ | ⟨_, _, h⟩
    · exact hdata ▸ h.sound d.current h.current_lt
    · exact hdata ▸ h.sound d.current h.current_lt
  obtain ⟨hcuts, hcode⟩ := hsound
  refine ⟨inner, ?_⟩
  rw [hdata, hcode, not_not.1 (mt hcuts.covers_iff.2 hcovers)]

end TemplateArtifact

namespace Draft

variable {text : Text} {tokens : List Token} {s : Scanner} {d : Draft}

/-- **Where a comment or a mustache is open**, the scanner reads nothing else before the end. -/
theorem Attuned.next_of_enclosed (h : d.Attuned text s) (hrest : s.rest ≠ []) :
    (d.currentKind = .comment →
      s.scan.1.kind = .commentContent ∨ s.scan.1.kind = .commentEnd) ∧
    (d.currentKind = .mustache →
      s.scan.1.kind = .mustacheContent ∨ s.scan.1.kind = .mustacheEnd) := by
  have hencloses : ∃ (m : Memory) (kind : TokenKind) (error : Option LexError) (rest : Text)
      (m' : Memory), m.Encloses d.currentKind ∧
        m.Yields s.dialect s.before s.rest kind error rest m' ∧
        s.scan = s.take kind error rest m' := by
    rcases h with ⟨prose, deal, hsynced⟩ | ⟨r, rfl, hfollows, hnamed⟩
    · obtain ⟨m, kind, error, rest, m', hturns, hyields, hscan⟩ := Scanner.scan_before_end hrest
      obtain rfl : m = s.memory := hturns.eq_of_rank hsynced.rank_eq_zero
      exact ⟨_, kind, error, rest, m', hsynced.encloses, hyields, hscan⟩
    · obtain ⟨m, kind, error, rest, m', hsynced, _, hyields, hscan⟩ :=
        hfollows.exists_step hnamed hrest
      exact ⟨m, kind, error, rest, m', hsynced.encloses, hfollows.dialect ▸ hyields, hscan⟩
  obtain ⟨m, kind, error, rest, m', ⟨hcomment, hmustache⟩, hyields, hscan⟩ := hencloses
  obtain ⟨hof, hof'⟩ := hyields.of_enclosed
  rw [hscan]
  exact ⟨fun hkind => hof (hcomment hkind), fun hkind => hof' (hmustache hkind)⟩

/-- The code of a mustache is read once. -/
theorem Attuned.mustache_empty (h : d.Attuned text s) (hkind : s.scan.1.kind = .mustacheContent) :
    ∃ inner, d.currentData = .mustache [] inner := by
  have hrest : s.rest ≠ [] := fun hnil => by
    rw [(s.scan_kind_eq_eos_iff).2 hnil] at hkind
    simp at hkind
  rcases h with ⟨prose, deal, hsynced⟩ | ⟨r, rfl, hfollows, hnamed⟩
  · obtain ⟨m, kind, error, rest, m', hturns, hyields, hscan⟩ := Scanner.scan_before_end hrest
    obtain rfl : m = s.memory := hturns.eq_of_rank hsynced.rank_eq_zero
    rw [hscan] at hkind
    obtain rfl : kind = .mustacheContent := hkind
    -- in prose there are no mustaches
    cases hyields with
    | mustacheContent state _ => simp only [ProseArtifacts.Synced, state] at hsynced
  · obtain ⟨m, kind, error, rest, m', hsynced, _, hyields, hscan⟩ :=
      hfollows.exists_step hnamed hrest
    rw [hscan] at hkind
    obtain rfl : kind = .mustacheContent := hkind
    cases hyields with
    | mustacheContent state here => exact hsynced.mustache_empty state hrest here

end Draft

namespace Scanner

variable {s : Scanner}

/-- What a rule says of the token that is read, where it is not the end. -/
theorem exists_yields (hkind : s.scan.1.kind ≠ .eos) : ∃ (m : Memory) (rest : Text) (m' : Memory),
    m.Yields s.dialect s.before s.rest s.scan.1.kind s.scan.1.error rest m' ∧
      s.scan.1.lexeme = Text.before s.rest rest := by
  have hrest : s.rest ≠ [] := fun hnil => hkind ((s.scan_kind_eq_eos_iff).2 hnil)
  obtain ⟨m, kind, error, rest, m', _, hyields, hscan⟩ := scan_before_end hrest
  rw [hscan]
  exact ⟨m, rest, m', hyields, rfl⟩

theorem lexeme_of_spelled {part : Text} (h : s.scan.1.kind.spelling? = some part) :
    s.scan.1.lexeme = part := by
  have hkind : s.scan.1.kind ≠ .eos := fun heos => by simp [heos, TokenKind.spelling?] at h
  obtain ⟨m, rest, m', hyields, hlexeme⟩ := exists_yields hkind
  rw [hlexeme, hyields.spelled h, before_append]

/-- An expression without a fault stands between braces. -/
theorem lexeme_of_expression (hkind : s.scan.1.kind = .blockExpression)
    (herror : s.scan.1.error = none) : ∃ inner, s.scan.1.lexeme = '{' :: inner ++ ['}'] := by
  obtain ⟨m, rest, m', hyields, hlexeme⟩ := exists_yields (s := s) (by rw [hkind]; decide)
  rw [hkind, herror] at hyields
  cases hyields with
  | closedExpression state mdx read =>
    rename_i inner
    have hparts : s.rest = ('{' :: inner ++ ['}']) ++ rest := by rw [read]; simp
    exact ⟨inner, by rw [hlexeme, hparts, before_append]⟩

end Scanner

namespace Draft

variable {text : Text} {tokens : List Token} {s : Scanner} {d : Draft}

/-! ## All tokens -/

/-- Nothing is said of a node that is open where a token means nothing to it. -/
theorem Pending.read {pos : Nat} {t : Token} (h : d.Pending text tokens pos)
    (hkind : t.kind = .eos) : d.Pending text (tokens ++ [t]) pos := by
  refine ⟨h.tells.read (by rw [hkind]; decide), h.begun, h.stop, fun u hu mark hclosing => ?_⟩
  rcases List.mem_append.1 hu with hu | hu
  · exact h.unclosed u hu mark hclosing
  · rw [List.mem_singleton.1 hu, hkind] at hclosing
    cases hk : d.currentKind <;> rw [hk] at hclosing <;> simp [NodeKind.closing?] at hclosing

/-- Between the nodes that are read in pieces a token settles what it is about, or begins one of
them. -/
theorem Settled.scan (h : d.Settled text tokens fun _ _ _ => False) (hs : d.Sits text s)
    (ha : d.Attuned text s) (hbehind : ∀ t ∈ tokens, t.span.stop ≤ s.offset) :
    (d.build s.scan.1).Told text (tokens ++ [s.scan.1]) s.scan.2.offset := by
  have hreads := hs.within.reads
  have hshape := hs.laidAt.laid.shape
  have hexpects := ha.expects
  cases henclosing : s.scan.1.kind.isEnclosing with
  | false =>
    exact .inl (h.build hs.laidAt.laid hs.aligned hreads Scanner.lexeme_of_expression henclosing)
  | true =>
    have hcurrent := h.current
    cases hkind : s.scan.1.kind <;> simp only [hkind, TokenKind.isEnclosing, Bool.false_eq_true]
      at henclosing <;> rw [hkind] at hexpects
    case commentStart =>
      have hlexeme : s.scan.1.lexeme = commentOpening :=
        Scanner.lexeme_of_spelled (by rw [hkind]; rfl)
      simp only [Draft.build, hkind]
      refine .inr (h.openPending hshape hreads ?_ (by rw [hkind]; decide) (fun mark => ?_) hbehind)
      · rw [hlexeme, NodeData.begun?, List.append_nil]
      · rw [hkind]
        simp [NodeData.kind, NodeKind.closing?]
    case mustacheStart =>
      have hlexeme : s.scan.1.lexeme = mustacheOpening :=
        Scanner.lexeme_of_spelled (by rw [hkind]; rfl)
      simp only [Draft.build, hkind, Draft.mustacheStart]
      refine .inr (h.openPending hshape hreads ?_ (by rw [hkind]; decide) (fun mark => ?_) hbehind)
      · rw [hlexeme, NodeData.begun?, List.append_nil]
      · rw [hkind]
        simp [NodeData.kind, NodeKind.closing?]
    case commentContent | commentEnd | mustacheContent | mustacheEnd =>
      rw [show d.currentKind = _ from hexpects] at hcurrent
      simp [NodeKind.isElastic] at hcurrent

/-- Of a comment more is read, or its end. -/
theorem Pending.scan_comment {old : Text} (h : d.Pending text tokens s.offset) (hs : d.Sits text s)
    (hdata : d.currentData = .comment old)
    (hnext : s.scan.1.kind = .commentContent ∨ s.scan.1.kind = .commentEnd) :
    (d.build s.scan.1).Told text (tokens ++ [s.scan.1]) s.scan.2.offset := by
  have hreads := hs.within.reads
  have hshape := hs.laidAt.laid.shape
  have hcurrent : d.currentKind = .comment := Tree.kind_of_data hdata
  rcases hnext with hkind | hkind
  · simp only [Draft.build, hkind, hdata]
    refine .inr (h.fill hs.aligned hshape.edge_lt hreads hcurrent.symm ?_ (by rw [hkind]; decide)
      ?_)
    · have hbegun := h.begun
      rw [hdata, NodeData.begun?, Option.some.injEq] at hbegun
      rw [NodeData.begun?, ← hbegun, List.append_assoc]
    · intro mark
      rw [hcurrent, hkind]
      simp [NodeKind.closing?]
  · obtain ⟨p, _, hp⟩ := hshape.older d.current
      (Nat.pos_of_ne_zero (hs.laidAt.laid.ne_root_of_data hdata (by simp [NodeData.kind])))
      hshape.edge_lt
    simp only [Draft.build, hkind, hcurrent, if_true]
    refine .inl (h.close hs.aligned hshape.edge_lt hp hreads ?_
      (Scanner.lexeme_of_spelled (by rw [hkind]; rfl)) (by rw [hkind]; decide))
    rw [hcurrent, hkind]
    rfl

/-- Of a mustache its code is read, of which there was nothing before, or its end. -/
theorem Pending.scan_mustache {code : Text} {inner : Span} (h : d.Pending text tokens s.offset)
    (hs : d.Sits text s) (ha : d.Attuned text s) (hdata : d.currentData = .mustache code inner)
    (hnext : s.scan.1.kind = .mustacheContent ∨ s.scan.1.kind = .mustacheEnd) :
    (d.build s.scan.1).Told text (tokens ++ [s.scan.1]) s.scan.2.offset := by
  have hreads := hs.within.reads
  have hshape := hs.laidAt.laid.shape
  have hcurrent : d.currentKind = .mustache := Tree.kind_of_data hdata
  rcases hnext with hkind | hkind
  · obtain ⟨_, hempty⟩ := ha.mustache_empty hkind
    simp only [Draft.build, hkind, Draft.mustacheContent, hdata]
    refine .inr (h.fill hs.aligned hshape.edge_lt hreads hcurrent.symm ?_ (by rw [hkind]; decide)
      ?_)
    · have hbegun := h.begun
      rw [hempty, NodeData.begun?, List.append_nil, Option.some.injEq] at hbegun
      rw [NodeData.begun?, ← hbegun]
    · intro mark
      rw [hcurrent, hkind]
      simp [NodeKind.closing?]
  · obtain ⟨p, _, hp⟩ := hshape.older d.current
      (Nat.pos_of_ne_zero (hs.laidAt.laid.ne_root_of_data hdata (by simp [NodeData.kind])))
      hshape.edge_lt
    simp only [Draft.build, hkind, Draft.mustacheEnd, hdata]
    refine .inl (Settled.attributeValue (h.close hs.aligned hshape.edge_lt hp hreads ?_
      (Scanner.lexeme_of_spelled (by rw [hkind]; rfl)) (by rw [hkind]; decide)) _)
    rw [hcurrent, hkind]
    rfl

/-- **A token leaves everything told** but of a comment or a mustache that is open. -/
theorem Told.scan (h : d.Told text tokens s.offset) (hs : d.Sits text s) (ha : d.Attuned text s)
    (hbehind : ∀ t ∈ tokens, t.span.stop ≤ s.offset) :
    (d.build s.scan.1).Told text (tokens ++ [s.scan.1]) s.scan.2.offset := by
  rcases h with h | h
  · exact h.scan hs ha hbehind
  · by_cases hrest : s.rest = []
    · have hkind : s.scan.1.kind = .eos := (s.scan_kind_eq_eos_iff).2 hrest
      have hoffset : s.scan.2.offset = s.offset := by
        rw [Scanner.scan_at_end hrest]
        simp [Scanner.take, hrest, Text.before, size]
      simp only [Draft.build, hkind, hoffset]
      exact .inr (h.read hkind)
    · obtain ⟨hcomment, hmustache⟩ := ha.next_of_enclosed hrest
      have hbegun := h.begun
      cases hdata : d.currentData <;> rw [hdata] at hbegun <;> simp [NodeData.begun?] at hbegun
      · exact h.scan_comment hs hdata (hcomment (Tree.kind_of_data hdata))
      · exact h.scan_mustache hs ha hdata (hmustache (Tree.kind_of_data hdata))

/-- The fault of a token does not matter. -/
theorem Told.takeToken {pos : Nat} {t : Token} (h : (d.build t).Told text tokens pos) :
    (d.takeToken t).Told text tokens pos := by
  unfold Draft.takeToken
  split
  · refine h.imp (fun h => h.of_tree rfl rfl) fun h => ?_
    exact ⟨h.tells.of_tree rfl, h.begun, h.stop, h.unclosed⟩
  · exact h

/-- The draft in front of what the scanner reads next, and the tokens it was made of. -/
structure Tracks (text : Text) (s : Scanner) (d : Draft) (tokens : List Token) : Prop where
  sits : d.Sits text s
  attuned : d.Attuned text s
  behind : ∀ t ∈ tokens, t.span.stop ≤ s.offset
  told : d.Told text tokens s.offset

theorem Tracks.scan (h : d.Tracks text s tokens) :
    (d.takeToken s.scan.1).Tracks text s.scan.2 (tokens ++ [s.scan.1]) := by
  have hreads := h.sits.within.reads
  refine ⟨h.sits.scan, h.attuned.scan h.sits.within, fun t ht => ?_,
    (h.told.scan h.sits h.attuned h.behind).takeToken⟩
  rcases List.mem_append.1 ht with ht | ht
  · exact Nat.le_trans (h.behind t ht) hreads.le
  · rw [List.mem_singleton.1 ht]
    exact Nat.le_of_eq hreads.stop

theorem tracks_start (dialect : Dialect) (text : Text) :
    (Draft.start dialect text).Tracks text (Scanner.start dialect text) [] := by
  have hroot (i : Nat) : (Draft.start dialect text).tree.data i = .root := by
    by_cases hi : i = Tree.root
    · rw [hi]
      rfl
    · rw [Tree.data_of_size_le (Nat.one_le_iff_ne_zero.2 hi)]
  refine ⟨sits_start dialect text, attuned_start dialect text,
    fun t ht => absurd ht List.not_mem_nil,
    .inl ⟨⟨fun i => .inl ?_, fun i p hp => ?_, fun t ht => absurd ht List.not_mem_nil⟩, rfl⟩⟩
  · rw [hroot]
    trivial
  · rw [Tree.kind, hroot]
    rfl

end Draft

/-! ## The finished tree -/

/-- Everything is told of a parsed document, but that nodes may be cut short by its end. -/
theorem Parse.draft_tells (dialect : Dialect) (text : Text) :
    (Parse.draft dialect text).Tells text (tokenize dialect text)
      (Draft.CutShort text (tokenize dialect text)) := by
  obtain ⟨s, htracks⟩ := Scanner.tokensIn_foldl (P := fun s d tokens => d.Tracks text s tokens)
    (f := Draft.takeToken) (g := fun tokens t => tokens ++ [t]) (fun _ _ _ h => h.scan)
    (tokenLimit text) (Draft.tracks_start dialect text)
  have htokens (ts us : List Token) : us.foldl (fun tokens t => tokens ++ [t]) ts = ts ++ us := by
    induction us generalizing ts with
    | nil => exact (List.append_nil ts).symm
    | cons u us ih => rw [List.foldl_cons, ih, List.append_assoc, List.singleton_append]
  rw [htokens, List.nil_append] at htracks
  exact htracks.told.finish htracks.sits.aligned htracks.sits.laidAt.laid

/-- A part of a node: it is cut out of the text, and lies within the node. -/
structure Span.PartOf (part span : Span) (text : Text) : Prop where
  cuts : part.Cuts text
  within : span.includes part = true

/-- A value is the part of the text that is noted with it, and there is none without the other. -/
def ValueAgrees (text : Text) (span : Span) (value : Option Text) (valueSpan : Option Span) :
    Prop :=
  value = valueSpan.map (slice text) ∧ ∀ part, valueSpan = some part → part.PartOf span text

/-- What a node with the given span stands for agrees with the text. -/
def NodeData.Agrees (text : Text) (span : Span) : NodeData → Prop
  | .text s | .importStatement s | .jsxStatement s | .rawText s => s = slice text span
  | .expressionStatement s part _ | .mustache s part => part.PartOf span text ∧ s = slice text part
  | .codeBlock b =>
    b.contentSpan.PartOf span text ∧ b.text = slice text b.contentSpan ∧
      (Span.empty b.openerEnd).PartOf span text
  | .element e =>
    (∀ n, e.startTagEnd = some n → isBoundary n text = true) ∧
      ∀ n, e.endTagStart = some n → isBoundary n text = true
  | .attr a => ValueAgrees text span a.value a.valueSpan
  | .directive a => ValueAgrees text span a.value a.valueSpan
  | .root | .comment _ | .paragraph => True

/-- A parse agrees with the document it was made from. -/
structure Parse.Agrees (p : Parse) (text : Text) (tokens : List Token) : Prop where
  spans : ∀ i : Nat, (p.tree.span i).Cuts text
  nodes : ∀ i : Nat, (p.tree.data i).Agrees text (p.tree.span i)
  diagnostics : ∀ x ∈ p.diagnostics, x.span.Cuts text
  /-- An expression is inline in a paragraph and only there, and it was read as one token. -/
  expressions : ∀ (i : Nat) s part isInline,
    p.tree.data i = .expressionStatement s part isInline →
      (isInline = true ↔ p.tree.InParagraph i) ∧ ∃ t ∈ tokens, t.Embraces text s (p.tree.span i)
  /-- Every expression that was read has a node. -/
  listed : ∀ t ∈ tokens, t.kind = .blockExpression → ∃ i s part isInline,
    p.tree.data i = .expressionStatement s part isInline ∧ t.Embraces text s (p.tree.span i)
  /-- A comment that is closed stands between its marks; one that is not goes on to the end. -/
  comments : ∀ (i : Nat) s, p.tree.data i = .comment s →
    if (p.tree.span i).EndsIn .commentEnd tokens then
      p.tree.nodeText i = commentOpening ++ s ++ commentClosing
    else (p.tree.span i).stop = size text
  mustaches : ∀ (i : Nat) s part, p.tree.data i = .mustache s part →
    if (p.tree.span i).EndsIn .mustacheEnd tokens then
      p.tree.nodeText i = mustacheOpening ++ s ++ mustacheClosing
    else (p.tree.span i).stop = size text

/-- What is sound, lies within its node and is told agrees with the text. -/
theorem NodeData.agrees {text : Text} {tokens : List Token} {inParagraph : Prop} {span : Span}
    {i : Nat} {data : NodeData} (hsound : data.Sound text span) (hfits : data.Fits span)
    (htells : data.Tells text tokens inParagraph span ∨
      data.kind.isElastic = false ∧ Draft.CutShort text tokens i data span)
    (hstartTag : ∀ n, data.startTagEnd? = some n → isBoundary n text = true) :
    data.Agrees text span := by
  have hpart {part : Span} (hmem : part ∈ data.parts) (hcuts : part.Cuts text) :
      part.PartOf span text := by
    refine ⟨hcuts, ?_⟩
    obtain ⟨hstart, hstop⟩ := hfits part hmem
    simp [Span.includes, hstart, hstop]
  -- only comments and mustaches are cut short
  have htold (hclosing : data.kind.closing? = none) : data.Tells text tokens inParagraph span := by
    refine htells.resolve_right fun hcut => ?_
    obtain ⟨_, _, _, _, hsome, _⟩ := hcut
    rw [hclosing] at hsome
    simp at hsome
  have hvalue {value : Option Text} {valueSpan : Option Span}
      (hvalue : ValueSound text value valueSpan) (hparts : data.parts = valueSpan.toList)
      (hsame : value.isSome = valueSpan.isSome) :
      ValueAgrees text span value valueSpan := by
    cases valueSpan with
    | none =>
      refine ⟨?_, fun part hpart => by simp at hpart⟩
      simpa using hsame
    | some part =>
      obtain ⟨hcuts, heq⟩ := hvalue part rfl
      refine ⟨heq, fun part' hpart' => ?_⟩
      obtain rfl := Option.some.inj hpart'
      exact hpart (by simp [hparts]) hcuts
  cases data with
  | root | comment _ | paragraph => trivial
  | text s | importStatement s | jsxStatement s | rawText s => exact htold rfl
  | expressionStatement s part isInline =>
    exact ⟨hpart (List.mem_singleton_self _) hsound.2.cutsInner, hsound.1⟩
  | mustache s part => exact ⟨hpart (List.mem_singleton_self _) hsound.1, hsound.2⟩
  | codeBlock b =>
    obtain ⟨hcontent, htext, hopener⟩ := hsound
    refine ⟨hpart List.mem_cons_self hcontent, htext, ?_⟩
    exact hpart (List.mem_cons_of_mem _ (List.mem_singleton_self _)) (Span.cuts_empty hopener.stop)
  | element e => exact ⟨hstartTag, htold rfl⟩
  | attr a => exact hvalue hsound rfl (htold rfl)
  | directive a => exact hvalue hsound rfl (htold rfl)

/-- What the nodes of a parse stand for agrees with the text. -/
theorem Parse.data_agrees (options : ParseOptions) (text : Text) (i : Nat) :
    ((Parse.ofText options text).tree.data i).Agrees text
      ((Parse.ofText options text).tree.span i) := by
  have htells := Parse.draft_tells options.dialect text
  have haligned := Parse.draft_aligned options.dialect text
  have hlaid := (Parse.draft_laid options.dialect text).1
  have hsound := (Parse.tree_sound options.dialect text).1
  by_cases hroot : (Parse.ofText options text).tree.data i = .root
  · rw [hroot]
    trivial
  · exact NodeData.agrees (hsound.node i hroot).2 (hlaid.parts i) (htells.node i) fun n hn =>
      (haligned.startTags i n hn).stop

/-- **A parse agrees with its document**, whatever the configuration. -/
theorem Parse.payloads_agree (options : ParseOptions) (text : Text) :
    (Parse.ofText options text).Agrees text (tokenize options.dialect text) := by
  have htells := Parse.draft_tells options.dialect text
  have haligned := Parse.draft_aligned options.dialect text
  have hlaid := (Parse.draft_laid options.dialect text).1
  have hnode (i : Nat) {data : NodeData} (hdata : (Parse.ofText options text).tree.data i = data) :
      data.Tells text (tokenize options.dialect text)
          ((Parse.ofText options text).tree.InParagraph i)
          ((Parse.ofText options text).tree.span i) ∨
        data.kind.isElastic = false ∧
          Draft.CutShort text (tokenize options.dialect text) i data
            ((Parse.ofText options text).tree.span i) :=
    hdata ▸ htells.node i
  have hslice (i : Nat) : (Parse.ofText options text).tree.nodeText i
      = slice text ((Parse.ofText options text).tree.span i) :=
    congrArg (slice · _) hlaid.text_eq
  refine ⟨fun i => (haligned.spans i).1, Parse.data_agrees options text,
    Parse.diagnostics_cut options text, fun i s part isInline hdata => ?_, htells.listed,
    fun i s hdata => ?_, fun i s part hdata => ?_⟩
  · rcases hnode i hdata with hexpression | ⟨_, _, _, _, hclosing, _⟩
    · exact hexpression
    · simp [NodeData.kind, NodeKind.closing?] at hclosing
  · rw [hslice]
    rcases hnode i hdata with ⟨heq, hends⟩ | ⟨_, hstop, _, _, hclosing, hends⟩
    · rw [if_pos hends, heq]
    · simp only [NodeData.kind, NodeKind.closing?, Option.some.injEq, Prod.mk.injEq] at hclosing
      rw [if_neg (hclosing.1 ▸ hends), hstop]
  · rw [hslice]
    rcases hnode i hdata with ⟨heq, hends⟩ | ⟨_, hstop, _, _, hclosing, hends⟩
    · rw [if_pos hends, heq]
    · simp only [NodeData.kind, NodeKind.closing?, Option.some.injEq, Prod.mk.injEq] at hclosing
      rw [if_neg (hclosing.1 ▸ hends), hstop]

end HybridMarkup
