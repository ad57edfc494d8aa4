/-
Drafts that are the same up to places.

Two tokens that differ in nothing but where they stand do the same to a draft, up to places. So if
two documents are read by such tokens, their drafts have the same nodes, below each other in the
same order, and with the same words (`Draft.Alike`). The relation leaves room for one block that has
been read in two versions (`Edit`): as long as it is not open and nothing is below it, no rule looks
at it, and it stays what it is in either draft.

Each way of working on a draft has one lemma here, as it has for the invariant of a single draft,
and the rules of prose are put together from them.
-/
import HybridMarkup.Proofs.Drafts

set_option autoImplicit false

namespace HybridMarkup

open Text

/-! ## Words -/

namespace NodeData

variable {data data' : NodeData}

/-- What a node stands for, without the places it mentions. -/
def words : NodeData → NodeData
  | .codeBlock b => .codeBlock { b with contentSpan := ⟨0, 0⟩, openerEnd := 0 }
  | .expressionStatement s _ isInline => .expressionStatement s ⟨0, 0⟩ isInline
  | .element e => .element { e with startTagEnd := none, endTagStart := none }
  | .attr a => .attr { a with valueSpan := none }
  | .directive a => .directive { a with valueSpan := none }
  | .mustache s _ => .mustache s ⟨0, 0⟩
  | data => data

theorem kind_words (data : NodeData) : data.words.kind = data.kind := by
  cases data <;> rfl

theorem kind_eq_of_words (h : data'.words = data.words) : data'.kind = data.kind := by
  rw [← kind_words, h, kind_words]

theorem comment_of_words {s : Text} (h : data'.words = (comment s).words) : data' = comment s := by
  cases data' <;> first | exact h | simp [words] at h

theorem codeBlock_of_words {b : CodeBlock} (h : data'.words = (codeBlock b).words) :
    ∃ contentSpan openerEnd, data' = codeBlock { b with contentSpan, openerEnd } := by
  cases data' with
  | codeBlock b' =>
    obtain ⟨lang, attrs, text, contentSpan, openerEnd⟩ := b'
    simp only [words, codeBlock.injEq, CodeBlock.mk.injEq] at h
    obtain ⟨rfl, rfl, rfl, _, _⟩ := h
    exact ⟨contentSpan, openerEnd, rfl⟩
  | _ => simp [words] at h

theorem element_of_words {e : Element} (h : data'.words = (element e).words) :
    ∃ startTagEnd endTagStart, data' = element { e with startTagEnd, endTagStart } := by
  cases data' with
  | element e' =>
    obtain ⟨tag, selfClose, startTagEnd, endTagStart⟩ := e'
    simp only [words, element.injEq, Element.mk.injEq] at h
    obtain ⟨rfl, rfl, _, _⟩ := h
    exact ⟨startTagEnd, endTagStart, rfl⟩
  | _ => simp [words] at h

end NodeData

/-- Two tokens that differ in nothing but where they stand. -/
structure Token.Alike (t t' : Token) : Prop where
  kind_eq : t'.kind = t.kind
  lexeme_eq : t'.lexeme = t.lexeme
  error_eq : t'.error = t.error

/-! ## Trees -/

namespace Tree

variable {t : Tree} {p : Nat}

theorem kind_sprout (hp : p < t.size) (data : NodeData) (span : Span) (j : Nat) :
    (t.sprout data span p).kind j = if j = t.size then data.kind else t.kind j := by
  rw [kind, data_sprout hp]
  split <;> rfl

theorem nodeText_sprout (hp : p < t.size) (data : NodeData) (span : Span) (j : Nat) :
    (t.sprout data span p).nodeText j = if j = t.size then slice t.text span else t.nodeText j := by
  rw [nodeText, text_sprout, span_sprout hp]
  split <;> rfl

theorem kind_setSpan (t : Tree) (i : Nat) (span : Span) (j : Nat) :
    (t.setSpan i span).kind j = t.kind j := by
  rw [kind, data_setSpan]
  rfl

theorem nodeText_setData (t : Tree) (i : Nat) (data : NodeData) (j : Nat) :
    (t.setData i data).nodeText j = t.nodeText j := by
  rw [nodeText, span_setData]
  rfl

theorem nodeText_setSpan {i : Nat} (t : Tree) (span : Span) {j : Nat} (h : i ≠ j) :
    (t.setSpan i span).nodeText j = t.nodeText j := by
  rw [nodeText, span_setSpan, if_neg fun hij => h hij.1]
  rfl

end Tree

/-! ## The relation -/

namespace Draft

/-- Only nodes that may have content are open or have something below them. -/
structure Upright (d : Draft) : Prop where
  current_lt : d.current < d.tree.size
  current_open : d.currentKind.isLeaf = false
  parent_open : ∀ i p : Nat, d.tree.parent i = some p → p < i ∧ (d.tree.kind p).isLeaf = false

/-- A block that has been read, in two versions. -/
structure Edit where
  node : NodeId
  old : CodeBlock
  new : CodeBlock

/-- The block is not open, nothing is below it, and each draft has its version of it. -/
structure Edit.Done (e : Edit) (d d' : Draft) : Prop where
  lt_size : e.node < d.tree.size
  not_current : e.node ≠ d.current
  childless : ∀ i : Nat, d.tree.parent i ≠ some e.node
  old_eq : d.tree.data e.node = .codeBlock e.old
  new_eq : d'.tree.data e.node = .codeBlock e.new

/-- Two drafts that are the same up to places, and up to a block, if one has been edited. -/
structure Alike (edit : Option Edit) (d d' : Draft) : Prop where
  upright : d.Upright
  dialect_eq : d'.tree.dialect = d.tree.dialect
  size_eq : d'.tree.size = d.tree.size
  current_eq : d'.current = d.current
  parent_eq : ∀ i, d'.tree.parent i = d.tree.parent i
  children_eq : ∀ i, d'.tree.children i = d.tree.children i
  words_eq : ∀ i, (∀ e ∈ edit, i ≠ e.node) → (d'.tree.data i).words = (d.tree.data i).words
  /-- What cannot grow any more covers the same text. -/
  covers_eq : ∀ i, (d.tree.kind i).isLeaf = true → d'.tree.nodeText i = d.tree.nodeText i
  done : ∀ e ∈ edit, e.Done d d'

variable {edit : Option Edit} {d d' : Draft} {data data' : NodeData} {span span' : Span}

theorem Alike.words_current (h : Alike edit d d') : d'.currentData.words = d.currentData.words := by
  rw [currentData, h.current_eq]
  exact h.words_eq d.current fun e he => ((h.done e he).not_current).symm

theorem Alike.kind_current (h : Alike edit d d') : d'.currentKind = d.currentKind :=
  NodeData.kind_eq_of_words h.words_current

theorem alike_start (dialect : Dialect) (text text' : Text) :
    Alike none (start dialect text) (start dialect text') := by
  have hnode (text : Text) (i : Nat) : ∃ span,
      (start dialect text).tree.node i = { span, data := .root } := by
    rcases i with _ | i
    · exact ⟨_, rfl⟩
    · exact ⟨_, Tree.node_of_size_le (Nat.le_add_left 1 i)⟩
  have hparent (text : Text) (i : Nat) : (start dialect text).tree.parent i = none := by
    obtain ⟨span, h⟩ := hnode text i
    rw [Tree.parent, h]
  have hdata (text : Text) (i : Nat) : (start dialect text).tree.data i = .root := by
    obtain ⟨span, h⟩ := hnode text i
    rw [Tree.data, h]
  constructor
  · refine ⟨Nat.one_pos, rfl, fun i p hp => ?_⟩
    rw [hparent] at hp
    simp at hp
  · rfl
  · rfl
  · rfl
  · intro i
    rw [hparent, hparent]
  · intro i
    obtain ⟨span, h⟩ := hnode text i
    obtain ⟨span', h'⟩ := hnode text' i
    rw [Tree.children, Tree.children, h, h']
  · intro i _
    rw [hdata, hdata]
  · intro i hleaf
    rw [Tree.kind, hdata] at hleaf
    simp [NodeData.kind, NodeKind.isLeaf] at hleaf
  · intro e he
    simp at he

/-! ## Ways of working on a draft -/

/-- What is reported, and what is remembered of an end tag, is no matter of the tree. -/
theorem Alike.of_tree {d₁ d₁' : Draft} (h : Alike edit d d') (htree : d₁.tree = d.tree)
    (hcurrent : d₁.current = d.current) (htree' : d₁'.tree = d'.tree)
    (hcurrent' : d₁'.current = d'.current) : Alike edit d₁ d₁' := by
  obtain ⟨tree, _, current, _, _⟩ := d₁
  obtain ⟨tree', _, current', _, _⟩ := d₁'
  obtain rfl : tree = d.tree := htree
  obtain rfl : current = d.current := hcurrent
  obtain rfl : tree' = d'.tree := htree'
  obtain rfl : current' = d'.current := hcurrent'
  exact ⟨⟨h.upright.current_lt, h.upright.current_open, h.upright.parent_open⟩, h.dialect_eq,
    h.size_eq, h.current_eq, h.parent_eq, h.children_eq, h.words_eq, h.covers_eq,
    fun e he => ⟨(h.done e he).lt_size, (h.done e he).not_current, (h.done e he).childless,
      (h.done e he).old_eq, (h.done e he).new_eq⟩⟩

/-- What the open node stands for changes. -/
theorem Alike.setCurrent (h : Alike edit d d') (hwords : data'.words = data.words)
    (hopen : data.kind.isLeaf = false) : Alike edit (d.setCurrent data) (d'.setCurrent data') := by
  have hkind (j : Nat) (hj : (d.tree.kind j).isLeaf = false) :
      ((d.setCurrent data).tree.kind j).isLeaf = false := by
    show ((d.tree.setData d.current data).data j).kind.isLeaf = false
    rw [Tree.data_setData]
    split
    · exact hopen
    · exact hj
  constructor
  · refine ⟨?_, hkind d.current h.upright.current_open, fun i p hp => ?_⟩
    · rw [size_setCurrent]
      exact h.upright.current_lt
    · obtain ⟨hlt, hleaf⟩ := h.upright.parent_open i p ((Tree.parent_setData ..).symm.trans hp)
      exact ⟨hlt, hkind p hleaf⟩
  · exact h.dialect_eq
  · rw [size_setCurrent, size_setCurrent]
    exact h.size_eq
  · exact h.current_eq
  · intro i
    exact ((Tree.parent_setData ..).trans (h.parent_eq i)).trans (Tree.parent_setData ..).symm
  · intro i
    exact ((Tree.children_setData ..).trans (h.children_eq i)).trans (Tree.children_setData ..).symm
  · intro i hi
    show ((d'.tree.setData d'.current data').data i).words
      = ((d.tree.setData d.current data).data i).words
    rw [Tree.data_setData, Tree.data_setData, h.current_eq, h.size_eq]
    split
    · exact hwords
    · exact h.words_eq i hi
  · intro i hleaf
    refine ((Tree.nodeText_setData ..).trans (h.covers_eq i ?_)).trans
      (Tree.nodeText_setData ..).symm
    refine Bool.not_eq_false _ |>.mp fun hnot => ?_
    rw [hkind i hnot] at hleaf
    simp at hleaf
  · intro e he
    obtain ⟨hlt, hcurrent, hchildless, hold, hnew⟩ := h.done e he
    refine ⟨?_, hcurrent, fun i hi => ?_, ?_, ?_⟩
    · rw [size_setCurrent]
      exact hlt
    · exact hchildless i ((Tree.parent_setData ..).symm.trans hi)
    · exact (Tree.data_setData ..).trans ((if_neg fun h => hcurrent h.1.symm).trans hold)
    · refine (Tree.data_setData ..).trans ((if_neg fun heq => hcurrent ?_).trans hnew)
      rw [← heq.1, h.current_eq]

/-- The end of a node moves that can still grow. -/
theorem Alike.setSpan (h : Alike edit d d') {i i' : Nat} (hi : i' = i)
    (hopen : (d.tree.kind i).isLeaf = false) (span span' : Span) :
    Alike edit { d with tree := d.tree.setSpan i span }
      { d' with tree := d'.tree.setSpan i' span' } := by
  subst hi
  constructor
  · refine ⟨?_, ?_, fun j p hp => ?_⟩
    · rw [Tree.size_setSpan]
      exact h.upright.current_lt
    · rw [currentKind, Tree.kind_setSpan]
      exact h.upright.current_open
    · rw [Tree.parent_setSpan] at hp
      rw [Tree.kind_setSpan]
      exact h.upright.parent_open j p hp
  · exact h.dialect_eq
  · rw [Tree.size_setSpan, Tree.size_setSpan]
    exact h.size_eq
  · exact h.current_eq
  · intro j
    rw [Tree.parent_setSpan, Tree.parent_setSpan]
    exact h.parent_eq j
  · intro j
    rw [Tree.children_setSpan, Tree.children_setSpan]
    exact h.children_eq j
  · intro j hj
    rw [Tree.data_setSpan, Tree.data_setSpan]
    exact h.words_eq j hj
  · intro j hleaf
    rw [Tree.kind_setSpan] at hleaf
    have hne : i' ≠ j := by
      rintro rfl
      rw [hopen] at hleaf
      simp at hleaf
    rw [Tree.nodeText_setSpan _ _ hne, Tree.nodeText_setSpan _ _ hne]
    exact h.covers_eq j hleaf
  · intro e he
    obtain ⟨hlt, hcurrent, hchildless, hold, hnew⟩ := h.done e he
    refine ⟨?_, hcurrent, fun j hj => ?_, ?_, ?_⟩
    · rw [Tree.size_setSpan]
      exact hlt
    · rw [Tree.parent_setSpan] at hj
      exact hchildless j hj
    · rw [Tree.data_setSpan]
      exact hold
    · rw [Tree.data_setSpan]
      exact hnew

theorem Alike.extend (h : Alike edit d d') (stop stop' : Nat) :
    Alike edit (d.extend stop) (d'.extend stop') := by
  unfold Draft.extend grow
  exact h.setSpan h.current_eq h.upright.current_open _ _

/-- A new child of the open node. -/
theorem Alike.sprout (h : Alike edit d d') (hwords : data'.words = data.words)
    (hcovers : data.kind.isLeaf = true → slice d'.tree.text span' = slice d.tree.text span) :
    Alike edit { d with tree := d.tree.sprout data span d.current }
      { d' with tree := d'.tree.sprout data' span' d'.current } := by
  have hlt := h.upright.current_lt
  have hlt' : d'.current < d'.tree.size := by
    rw [h.current_eq, h.size_eq]
    exact hlt
  constructor
  · refine ⟨?_, ?_, fun i p hp => ?_⟩
    · rw [Tree.size_sprout]
      exact Nat.lt_succ_of_lt hlt
    · rw [currentKind, Tree.kind_sprout hlt, if_neg (Nat.ne_of_lt hlt)]
      exact h.upright.current_open
    · rw [Tree.parent_sprout hlt] at hp
      rw [Tree.kind_sprout hlt]
      split at hp
      · next hi =>
        obtain rfl := Option.some.inj hp
        rw [if_neg (Nat.ne_of_lt hlt), hi]
        exact ⟨hlt, h.upright.current_open⟩
      · obtain ⟨hpi, hleaf⟩ := h.upright.parent_open i p hp
        have hi := Tree.lt_size_of_parent hp
        rw [if_neg (Nat.ne_of_lt (Nat.lt_trans hpi hi))]
        exact ⟨hpi, hleaf⟩
  · rw [Tree.dialect_sprout, Tree.dialect_sprout]
    exact h.dialect_eq
  · rw [Tree.size_sprout, Tree.size_sprout, h.size_eq]
  · exact h.current_eq
  · intro i
    rw [Tree.parent_sprout hlt, Tree.parent_sprout hlt', h.size_eq, h.current_eq, h.parent_eq]
  · intro i
    rw [Tree.children_sprout hlt, Tree.children_sprout hlt', h.size_eq, h.current_eq,
      h.children_eq, h.children_eq]
  · intro i hi
    rw [Tree.data_sprout hlt, Tree.data_sprout hlt', h.size_eq]
    split
    · exact hwords
    · exact h.words_eq i hi
  · intro i hleaf
    rw [Tree.kind_sprout hlt] at hleaf
    rw [Tree.nodeText_sprout hlt, Tree.nodeText_sprout hlt', h.size_eq]
    split
    · next hi =>
      rw [if_pos hi] at hleaf
      exact hcovers hleaf
    · next hi =>
      rw [if_neg hi] at hleaf
      exact h.covers_eq i hleaf
  · intro e he
    obtain ⟨hless, hcurrent, hchildless, hold, hnew⟩ := h.done e he
    refine ⟨?_, hcurrent, fun i hi => ?_, ?_, ?_⟩
    · rw [Tree.size_sprout]
      exact Nat.lt_succ_of_lt hless
    · rw [Tree.parent_sprout hlt] at hi
      split at hi
      · exact hcurrent (Option.some.inj hi).symm
      · exact hchildless i hi
    · rw [Tree.data_sprout hlt, if_neg (Nat.ne_of_lt hless)]
      exact hold
    · rw [Tree.data_sprout hlt', h.size_eq, if_neg (Nat.ne_of_lt hless)]
      exact hnew

/-- A node that takes no children. -/
theorem Alike.leaf (h : Alike edit d d') (hwords : data'.words = data.words)
    (hcovers : data.kind.isLeaf = true → slice d'.tree.text span' = slice d.tree.text span) :
    Alike edit (d.leaf data span) (d'.leaf data' span') :=
  (h.sprout hwords hcovers).extend span.stop span'.stop

/-- A node that is open from now on. -/
theorem Alike.openNode (h : Alike edit d d') (hwords : data'.words = data.words)
    (hopen : data.kind.isLeaf = false) (span span' : Span) :
    Alike edit (d.openNode data span) (d'.openNode data' span') := by
  have hleaf : Alike edit (d.leaf data span) (d'.leaf data' span') :=
    h.leaf hwords fun hleaf => by rw [hopen] at hleaf; simp at hleaf
  obtain ⟨hdata, -⟩ := node_leaf data span h.upright.current_lt
  have hcurrent : (d.openNode data span).current < (d.openNode data span).tree.size :=
    Nat.lt_of_succ_le (Nat.le_of_eq (openNode_last d data span))
  refine ⟨⟨hcurrent, ?_, hleaf.upright.parent_open⟩, hleaf.dialect_eq, hleaf.size_eq, h.size_eq,
    hleaf.parent_eq, hleaf.children_eq, hleaf.words_eq, hleaf.covers_eq, fun e he => ?_⟩
  · show ((d.leaf data span).tree.data d.tree.size).kind.isLeaf = false
    rw [hdata, hopen]
  · obtain ⟨hlt, -, hchildless, hold, hnew⟩ := hleaf.done e he
    exact ⟨hlt, Nat.ne_of_lt (h.done e he).lt_size, hchildless, hold, hnew⟩

/-- Back to the parent. -/
theorem Alike.ascend (h : Alike edit d d') : Alike edit d.ascend d'.ascend := by
  unfold Draft.ascend
  rw [h.current_eq, h.parent_eq]
  cases hparent : d.tree.parent d.current with
  | none => exact h
  | some p =>
    obtain ⟨hlt, hopen⟩ := h.upright.parent_open _ p hparent
    have hmoved : Alike edit { d with current := p } { d' with current := p } := by
      refine ⟨⟨Nat.lt_trans hlt h.upright.current_lt, hopen, h.upright.parent_open⟩, h.dialect_eq,
        h.size_eq, rfl, h.parent_eq, h.children_eq, h.words_eq, h.covers_eq, fun e he => ?_⟩
      obtain ⟨hless, -, hchildless, hold, hnew⟩ := h.done e he
      refine ⟨hless, ?_, hchildless, hold, hnew⟩
      rintro rfl
      exact hchildless _ hparent
    exact hmoved.setSpan rfl hopen _ _

/-- The open node ends, and its parent is the open one. -/
theorem Alike.close (h : Alike edit d d') (stop stop' : Nat) :
    Alike edit (d.close stop) (d'.close stop') := by
  unfold Draft.close
  exact (h.setSpan h.current_eq h.upright.current_open _ _).ascend

/-! ## Closing what nothing closed -/

theorem Alike.supplyEndTagStart (h : Alike edit d d') (stop stop' : Nat) :
    Alike edit (d.supplyEndTagStart stop) (d'.supplyEndTagStart stop') := by
  have hwords := h.words_current
  unfold Draft.supplyEndTagStart
  split
  · next e he =>
    rw [he] at hwords
    obtain ⟨startTagEnd, endTagStart, he'⟩ := NodeData.element_of_words hwords
    rw [he']
    exact h.setCurrent rfl rfl
  · next hother =>
    split
    · next e' he' =>
      rw [he'] at hwords
      obtain ⟨_, _, he⟩ := NodeData.element_of_words hwords.symm
      exact absurd he (hother _)
    · exact h

/-- Unless it is an element, a node that nothing closed is closed like any other. -/
theorem exists_close_eq (hother : ∀ e, d.currentData ≠ .element e) (stop : Nat) :
    ∃ d₁ : Draft, d₁.tree = d.tree ∧ d₁.current = d.current ∧
      d.closeUnterminated stop = d₁.close stop := by
  refine ⟨_, ?_, ?_, rfl⟩
  · split
    · next e he => exact absurd he (hother e)
    · rfl
    · split <;> rfl
  · split
    · next e he => exact absurd he (hother e)
    · rfl
    · split <;> rfl

theorem Alike.closeUnterminated (h : Alike edit d d') (stop stop' : Nat) :
    Alike edit (d.closeUnterminated stop) (d'.closeUnterminated stop') := by
  have hwords := h.words_current
  by_cases helement : ∃ e, d.currentData = .element e
  · obtain ⟨e, he⟩ := helement
    rw [he] at hwords
    obtain ⟨startTagEnd, endTagStart, he'⟩ := NodeData.element_of_words hwords
    unfold Draft.closeUnterminated
    rw [he, he']
    refine Alike.close ?_ stop stop'
    -- what is noted is where the start tag ends
    have hset : Alike edit
        (d.setCurrent (.element { e with startTagEnd := some (e.startTagEnd.getD stop) }))
        (d'.setCurrent (.element
          { e with startTagEnd := some (startTagEnd.getD stop'), endTagStart })) :=
      h.setCurrent rfl rfl
    exact hset.of_tree rfl rfl rfl rfl
  · have hother (e : Element) : d.currentData ≠ .element e := fun he => helement ⟨e, he⟩
    have hother' (e' : Element) : d'.currentData ≠ .element e' := by
      intro he'
      rw [he'] at hwords
      obtain ⟨_, _, he⟩ := NodeData.element_of_words hwords.symm
      exact hother _ he
    obtain ⟨d₁, htree, hcurrent, hclose⟩ := exists_close_eq hother stop
    obtain ⟨d₁', htree', hcurrent', hclose'⟩ := exists_close_eq hother' stop'
    rw [hclose, hclose']
    exact (h.of_tree htree hcurrent htree' hcurrent').close stop stop'

/-- **Closing at the end of the text** leaves two drafts alike. -/
theorem Alike.finish (h : Alike edit d d') : Alike edit d.finish d'.finish := by
  unfold Draft.finish
  rw [h.size_eq]
  generalize size d.tree.text = stop
  generalize size d'.tree.text = stop'
  induction d.tree.size generalizing d d' with
  | zero => exact h
  | succ fuel ih =>
    unfold finishIn
    rw [h.current_eq]
    split
    · exact h
    · exact ih ((h.supplyEndTagStart stop stop').closeUnterminated stop stop')

/-! ## Editing a block -/

/-- How far a node has grown does not matter to where it is closed. -/
theorem close_extend (d : Draft) (stop stop' : Nat) :
    (d.extend stop).close stop' = d.close stop' := by
  have hstart :
      ((d.tree.setSpan d.current ((d.tree.span d.current).growTo stop)).span d.current).start
        = (d.tree.span d.current).start := by
    rw [Tree.span_setSpan]
    split <;> rfl
  unfold extend grow close
  dsimp only
  rw [hstart, Tree.setSpan_setSpan]

/-- What the open node stands for may as well be changed when it is closed. -/
theorem close_setCurrent (d : Draft) (data : NodeData) (stop : Nat) :
    (d.setCurrent data).close stop = (d.close stop).setData d.current data := by
  unfold setCurrent setData close ascend
  dsimp only
  rw [Tree.span_setData, Tree.setSpan_setData, Tree.parent_setData]
  generalize d.tree.setSpan d.current
    ⟨(d.tree.span d.current).start, max stop (d.tree.span d.current).start⟩ = t
  cases t.parent d.current with
  | none => rfl
  | some p =>
    unfold grow
    dsimp only
    rw [Tree.span_setData, Tree.span_setData, Tree.setSpan_setData]

/-- **A block that is closed and has nothing below it** may be read in two versions. -/
theorem Alike.setBlock (h : Alike none d d') {k : Nat} (hlt : k < d.tree.size)
    (hcurrent : k ≠ d.current) (hchildless : ∀ i : Nat, d.tree.parent i ≠ some k)
    (hkind : d.tree.kind k = .codeBlock) (b b' : CodeBlock) :
    Alike (some ⟨k, b, b'⟩) (d.setData k (.codeBlock b)) (d'.setData k (.codeBlock b')) := by
  have hkinds (j : Nat) : (d.setData k (.codeBlock b)).tree.kind j = d.tree.kind j := by
    show ((d.tree.setData k (.codeBlock b)).data j).kind = _
    rw [Tree.data_setData]
    split
    · next hj =>
      rw [← hj.1, hkind]
      rfl
    · rfl
  constructor
  · refine ⟨?_, ?_, fun i p hp => ?_⟩
    · exact (Tree.size_setData ..).symm ▸ h.upright.current_lt
    · show ((d.setData k (.codeBlock b)).tree.kind d.current).isLeaf = false
      rw [hkinds]
      exact h.upright.current_open
    · rw [hkinds]
      exact h.upright.parent_open i p ((Tree.parent_setData ..).symm.trans hp)
  · exact h.dialect_eq
  · exact ((Tree.size_setData ..).trans h.size_eq).trans (Tree.size_setData ..).symm
  · exact h.current_eq
  · intro i
    exact ((Tree.parent_setData ..).trans (h.parent_eq i)).trans (Tree.parent_setData ..).symm
  · intro i
    exact ((Tree.children_setData ..).trans (h.children_eq i)).trans (Tree.children_setData ..).symm
  · intro i hi
    have hne : k ≠ i := fun heq => hi _ rfl heq.symm
    show ((d'.tree.setData k (.codeBlock b')).data i).words
      = ((d.tree.setData k (.codeBlock b)).data i).words
    rw [Tree.data_setData, Tree.data_setData, if_neg fun heq => hne heq.1,
      if_neg fun heq => hne heq.1]
    exact h.words_eq i fun e he => by simp at he
  · intro i hleaf
    rw [hkinds] at hleaf
    exact ((Tree.nodeText_setData ..).trans (h.covers_eq i hleaf)).trans
      (Tree.nodeText_setData ..).symm
  · intro e he
    obtain rfl := Option.some.inj he
    refine ⟨?_, hcurrent, fun i hi => ?_, ?_, ?_⟩
    · exact (Tree.size_setData ..).symm ▸ hlt
    · exact hchildless i ((Tree.parent_setData ..).symm.trans hi)
    · exact (Tree.data_setData ..).trans (if_pos ⟨rfl, hlt⟩)
    · exact (Tree.data_setData ..).trans (if_pos ⟨rfl, h.size_eq.symm ▸ hlt⟩)

/-! ## The rules of prose -/

section Rules

variable {t t' : Token}

theorem Alike.proseText (h : Alike edit d d') (ht : t.Alike t')
    (hcovers : slice d'.tree.text t'.span = slice d.tree.text t.span) :
    Alike edit (d.proseText t) (d'.proseText t') := by
  unfold Draft.proseText
  rw [h.kind_current]
  split
  · exact h.leaf (by rw [ht.lexeme_eq]) fun _ => hcovers
  · have hopened : Alike edit (d.openNode .paragraph t.span) (d'.openNode .paragraph t'.span) :=
      h.openNode rfl rfl _ _
    refine hopened.leaf (by rw [ht.lexeme_eq]) fun _ => ?_
    rw [show (d.openNode .paragraph t.span).tree.text = d.tree.text from
        Tree.text_sprout d.tree .paragraph t.span d.current,
      show (d'.openNode .paragraph t'.span).tree.text = d'.tree.text from
        Tree.text_sprout d'.tree .paragraph t'.span d'.current]
    exact hcovers

theorem Alike.paragraphEnd (h : Alike edit d d') (t t' : Token) :
    Alike edit (d.paragraphEnd t) (d'.paragraphEnd t') := by
  unfold Draft.paragraphEnd
  rw [h.kind_current]
  split
  · exact h.close _ _
  · exact h

theorem Alike.codeBlockStart (h : Alike edit d d') (t t' : Token) :
    Alike edit (d.codeBlockStart t) (d'.codeBlockStart t') := by
  refine h.openNode ?_ ?_ t.span t'.span
  · rfl
  · rfl

theorem Alike.codeBlockAttribute (h : Alike edit d d') (ht : t.Alike t') :
    Alike edit (d.codeBlockAttribute t) (d'.codeBlockAttribute t') := by
  have hwords := h.words_current
  unfold Draft.codeBlockAttribute
  split
  · next b hb =>
    rw [hb] at hwords
    obtain ⟨contentSpan, openerEnd, hb'⟩ := NodeData.codeBlock_of_words hwords
    rw [hb']
    dsimp only
    refine Alike.extend ?_ _ _
    rw [ht.lexeme_eq]
    split
    · exact h.setCurrent rfl rfl
    · have hset : Alike edit
          (d.setCurrent (.codeBlock
            { b with
              attrs := b.attrs ++ [splitAttr t.lexeme]
              openerEnd := t.span.stop }))
          (d'.setCurrent (.codeBlock
            { b with
              attrs := b.attrs ++ [splitAttr t.lexeme]
              contentSpan
              openerEnd := t'.span.stop })) :=
        h.setCurrent rfl rfl
      split
      · exact hset.of_tree rfl rfl rfl rfl
      · exact hset
  · next hother =>
    split
    · next b' hb' =>
      rw [hb'] at hwords
      obtain ⟨_, _, hb⟩ := NodeData.codeBlock_of_words hwords.symm
      exact absurd hb (hother _)
    · exact h

theorem Alike.codeBlockContent (h : Alike edit d d') (ht : t.Alike t') :
    Alike edit (d.codeBlockContent t) (d'.codeBlockContent t') := by
  have hwords := h.words_current
  unfold Draft.codeBlockContent
  refine Alike.extend ?_ _ _
  split
  · next b hb =>
    rw [hb] at hwords
    obtain ⟨contentSpan, openerEnd, hb'⟩ := NodeData.codeBlock_of_words hwords
    rw [hb']
    rw [ht.lexeme_eq]
    exact h.setCurrent rfl rfl
  · next hother =>
    split
    · next b' hb' =>
      rw [hb'] at hwords
      obtain ⟨_, _, hb⟩ := NodeData.codeBlock_of_words hwords.symm
      exact absurd hb (hother _)
    · exact h

theorem Alike.codeBlockEnd (h : Alike edit d d') (t t' : Token) :
    Alike edit (d.codeBlockEnd t) (d'.codeBlockEnd t') := by
  have hwords := h.words_current
  unfold Draft.codeBlockEnd
  split
  · next b hb =>
    rw [hb] at hwords
    obtain ⟨contentSpan, openerEnd, hb'⟩ := NodeData.codeBlock_of_words hwords
    rw [hb']
    refine Alike.close ?_ _ _
    split
    · exact h.setCurrent rfl rfl
    · exact h
  · next hother =>
    split
    · next b' hb' =>
      rw [hb'] at hwords
      obtain ⟨_, _, hb⟩ := NodeData.codeBlock_of_words hwords.symm
      exact absurd hb (hother _)
    · exact h

theorem Alike.blockExpression (h : Alike edit d d') (ht : t.Alike t')
    (hcovers : slice d'.tree.text t'.span = slice d.tree.text t.span) :
    Alike edit (d.blockExpression t) (d'.blockExpression t') := by
  unfold Draft.blockExpression
  rw [h.kind_current, ht.lexeme_eq, ht.error_eq]
  dsimp only
  refine h.leaf ?_ fun _ => hcovers
  split <;> rfl

theorem Alike.commentContent (h : Alike edit d d') (ht : t.Alike t') :
    Alike edit
      ((match d.currentData with
        | .comment s => d.setCurrent (.comment (s ++ t.lexeme))
        | _ => d).extend t.span.stop)
      ((match d'.currentData with
        | .comment s => d'.setCurrent (.comment (s ++ t'.lexeme))
        | _ => d').extend t'.span.stop) := by
  have hwords := h.words_current
  refine Alike.extend ?_ _ _
  split
  · next s hs =>
    rw [hs] at hwords
    rw [NodeData.comment_of_words hwords, ht.lexeme_eq]
    exact h.setCurrent rfl rfl
  · next hother =>
    split
    · next s hs =>
      rw [hs] at hwords
      exact absurd (NodeData.comment_of_words hwords.symm) (hother s)
    · exact h

end Rules

end Draft

/-- The tokens that prose is made of. -/
def TokenKind.isProse : TokenKind → Bool
  | .text | .paragraphEnd | .whitespace | .commentStart | .commentContent | .commentEnd
  | .codeBlockStart | .codeBlockAttribute | .codeBlockContent | .codeBlockEnd
  | .importStatement | .jsxExpression | .blockExpression | .unknown | .eos => true
  | _ => false

namespace Draft

variable {edit : Option Edit} {d d' : Draft} {t t' : Token}

/-- **Two tokens that differ in nothing but where they stand do the same** to two drafts that are
alike. -/
theorem Alike.takeToken (h : Alike edit d d') (prose : d.tree.dialect ≠ .template)
    (ht : t.Alike t') (hkind : t.kind.isProse = true)
    (hcovers : slice d'.tree.text t'.span = slice d.tree.text t.span) :
    Alike edit (d.takeToken t) (d'.takeToken t') := by
  have hbuild : Alike edit (d.build t) (d'.build t') := by
    unfold Draft.build
    rw [ht.kind_eq]
    cases hk : t.kind <;> rw [hk] at hkind <;> try (simp [TokenKind.isProse] at hkind; done)
    case text =>
      dsimp only
      rw [if_neg prose, if_neg (h.dialect_eq ▸ prose)]
      exact h.proseText ht hcovers
    case paragraphEnd => exact h.paragraphEnd t t'
    case commentStart => exact h.openNode rfl rfl _ _
    case commentContent => exact h.commentContent ht
    case commentEnd =>
      dsimp only
      rw [h.kind_current]
      split
      · exact h.close _ _
      · exact h
    case codeBlockStart => exact h.codeBlockStart t t'
    case codeBlockAttribute => exact h.codeBlockAttribute ht
    case codeBlockContent => exact h.codeBlockContent ht
    case codeBlockEnd => exact h.codeBlockEnd t t'
    case importStatement => exact h.leaf (by rw [ht.lexeme_eq]) fun _ => hcovers
    case jsxExpression => exact h.leaf (by rw [ht.lexeme_eq]) fun _ => hcovers
    case blockExpression => exact h.blockExpression ht hcovers
    all_goals exact h
  unfold Draft.takeToken
  rw [ht.error_eq]
  split
  · exact hbuild.of_tree rfl rfl rfl rfl
  · exact hbuild

end Draft

end HybridMarkup
