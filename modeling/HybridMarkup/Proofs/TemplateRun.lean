/-
Reading templates: how the tokens of a template become its tree.

The code in a template stands in three kinds of tokens: opaque bodies, mustaches, and the values of
directives. `Reading` goes through the tokens and notes for each of them the node it belongs to,
which is the open node once the token is taken in: the element around a body, the mustache, or the
directive. Then it is shown that the nodes of the tree hold the very same pieces of code in the
same order (`pieces_of_tree`). As in prose, the scanner and the draft go in step. In a tag the open
node is an element or one of its attributes; a mustache and a directive are the newest node until
their code is read, and when it is read the scanner stands in front of what closes them, so that
there is never a second piece of code for one node.
-/
import HybridMarkup.Artifact.Template
import HybridMarkup.Proofs.ProseRun

set_option autoImplicit false

namespace HybridMarkup

open Text

namespace TemplateArtifact

/-! ## The code in a template -/

/-- A piece of code, and the node it belongs to. -/
inductive Piece where
  /-- The opaque body of an element. -/
  | body (element : Nat) (source : Span)
  /-- The code in a mustache or in the value of a directive. -/
  | code (node : Nat) (source : Span)
deriving DecidableEq, Repr

namespace Piece

/-- Where the piece stands in the document. -/
def source : Piece → Span
  | body _ source => source
  | code _ source => source

/-- The piece as the only one, unless it has no characters. -/
def list (p : Piece) : List Piece := if p.source.Covers then [p] else []

end Piece

/-- The piece of code in a token that belongs to the given node. The value of an attribute is code
if the attribute is a directive. -/
def tokenPiece (inDirective : Bool) (owner : Nat) (t : Token) : List Piece :=
  match t.kind with
  | .rawText => (Piece.body owner t.span).list
  | .mustacheContent => (Piece.code owner t.span).list
  | .attributeValue => if inDirective then (Piece.code owner t.span).list else []
  | _ => []

/-- Whether the last attribute that was named is a directive. -/
def namesDirective (before : Bool) : TokenKind → Bool
  | .attributeName => false
  | .directiveName => true
  | _ => before

/-- The draft of a template, and the code in the tokens taken in so far. -/
structure Reading where
  draft : Draft
  inDirective : Bool := false
  pieces : List Piece := []

/-- Takes in a token. -/
def Reading.take (r : Reading) (t : Token) : Reading :=
  { draft := r.draft.takeToken t
    inDirective := namesDirective r.inDirective t.kind
    pieces := r.pieces ++ tokenPiece r.inDirective (r.draft.takeToken t).current t }

/-- A template whose tokens are all taken in. -/
def Reading.ofText (text : Text) : Reading :=
  (tokenize .template text).foldl Reading.take { draft := Draft.start .template text }

/-- The code of a tree, node by node. -/
def pieces : Gather Piece where
  of i parent data span :=
    match data with
    | .rawText _ => (Piece.body (parent.getD Tree.root) span).list
    | .mustache _ inner => (Piece.code i inner).list
    | .directive d =>
      match d.valueSpan with
      | some valueSpan => (Piece.code i valueSpan).list
      | none => []
    | _ => []
  silent _ _ data _ h := by
    cases data <;> first | rfl | simp [NodeData.kind, NodeKind.isSilent] at h
  steady _ _ data _ _ h := by
    cases data <;> first | rfl | simp [NodeData.kind, NodeKind.isLeaf] at h

/-! ## The scanner and the draft in step -/

/-- Elements within elements, down to the root. -/
inductive Nested : List NodeKind → Prop where
  | root : Nested [.root]
  | element {path : List NodeKind} (outer : Nested path) : Nested (.element :: path)

theorem Nested.exists_cons {path : List NodeKind} (h : Nested path) :
    ∃ k path', path = k :: path' ∧ Dialect.template.nests k = true ∧
      (k = .root ∨ k = .element) := by
  cases h with
  | root => exact ⟨_, _, rfl, rfl, .inl rfl⟩
  | element _ => exact ⟨_, _, rfl, rfl, .inr rfl⟩

/-- The value of a directive is at its end. -/
def AtValueEnd (m : Memory) (rest : Text) : Prop :=
  rest = [] ∨ (m.valueMark = none ∧ atUnquotedEnd rest = true) ∨
    ∃ mark, m.valueMark = some mark ∧ startsWith [mark] rest = true

/-- The open node is a directive and the newest node. It has no value yet, or the value ends here.
-/
def DirectiveOpen (m : Memory) (rest : Text) (pos : Nat) (d : Draft) : Prop :=
  d.current + 1 = d.tree.size ∧ ∃ directive, d.currentData = .directive directive ∧
    (directive.valueSpan = none ∨
      ∃ span, directive.valueSpan = some span ∧ span.stop = pos ∧ m.state = .value ∧
        AtValueEnd m rest)

/-- The open node is a mustache and the newest node. It has no code yet, or the code ends here. -/
def MustacheOpen (rest : Text) (d : Draft) : Prop :=
  d.current + 1 = d.tree.size ∧ ∃ code inner, d.currentData = .mustache code inner ∧
    (¬ inner.Covers ∨ rest = [] ∨ startsWith mustacheClosing rest = true)

/-- What is open in a start tag: the element, or an attribute of it. -/
def TagPath (path : List NodeKind) : Prop :=
  ∃ outer, Nested outer ∧
    (path = .element :: outer ∨ path = .attr :: .element :: outer ∨
      path = .directive :: .element :: outer)

/-- The open node is an attribute. -/
def AttributeOpen (text : Text) (m : Memory) (rest : Text) (pos : Nat) (xs : List Piece)
    (d : Draft) : Prop :=
  ∃ path, Nested path ∧
    (m.inDirective = false ∧ d.Stands pieces .template text pos (.attr :: .element :: path) xs ∨
      m.inDirective = true ∧
        d.Stands pieces .template text pos (.directive :: .element :: path) xs ∧
        DirectiveOpen m rest pos d)

/-- The draft fits the context of the scanner in front of the text `rest`. -/
def Synced (text : Text) (m : Memory) (rest : Text) (pos : Nat) (xs : List Piece) (d : Draft) :
    Prop :=
  match m.state with
  | .content | .endTagName | .endTag | .scriptBody | .styleBody =>
    ∃ path, Nested path ∧ d.Stands pieces .template text pos path xs
  | .comment =>
    m.returnState = .content ∧
      ∃ path, Nested path ∧ d.Stands pieces .template text pos (.comment :: path) xs
  | .startTagName =>
    ∃ path, Nested path ∧ d.Stands pieces .template text pos (.element :: path) xs
  | .startTag => ∃ path, TagPath path ∧ d.Stands pieces .template text pos path xs
  | .attributeNamed | .beforeValue | .value => AttributeOpen text m rest pos xs d
  | .mustache =>
    MustacheOpen rest d ∧ ∃ path, Nested path ∧
      (m.returnState = .content ∧ d.Stands pieces .template text pos (.mustache :: path) xs ∨
        m.returnState = .value ∧ m.inDirective = false ∧
          d.Stands pieces .template text pos (.mustache :: .attr :: .element :: path) xs)
  | _ => False

variable {text rest u : Text} {m m' : Memory} {pos pos' : Nat} {xs : List Piece} {d : Draft}
  {t : Token} {path : List NodeKind}

/-- An attribute is open in the start tag of an element. -/
theorem AttributeOpen.exists_tagPath (h : AttributeOpen text m rest pos xs d) :
    ∃ path, TagPath path ∧ d.Stands pieces .template text pos path xs := by
  obtain ⟨path, hn, ⟨_, h⟩ | ⟨_, h, _⟩⟩ := h
  · exact ⟨_, ⟨path, hn, .inr (.inl rfl)⟩, h⟩
  · exact ⟨_, ⟨path, hn, .inr (.inr rfl)⟩, h⟩

/-- In front of the value nothing is read that could be one. -/
theorem AttributeOpen.onward (h : AttributeOpen text m u pos xs d) (state : m.state ≠ .value)
    (hdirective : m'.inDirective = m.inDirective) (hle : pos ≤ pos') :
    AttributeOpen text m' rest pos' xs d := by
  obtain ⟨path, hn, ⟨hno, h⟩ | ⟨hyes, h, hlast, a, hdata, hvalue⟩⟩ := h
  · exact ⟨path, hn, .inl ⟨hdirective.trans hno, h.mono hle⟩⟩
  · refine ⟨path, hn, .inr ⟨hdirective.trans hyes, h.mono hle, hlast, a, hdata, .inl ?_⟩⟩
    rcases hvalue with hnone | ⟨_, _, _, hstate, _⟩
    · exact hnone
    · exact absurd hstate state

theorem AttributeOpen.extend (h : AttributeOpen text m rest pos xs d) {stop : Nat}
    (hstop : isBoundary stop text = true) : AttributeOpen text m rest pos xs (d.extend stop) := by
  obtain ⟨path, hn, ⟨hno, h⟩ | ⟨hyes, h, hlast, a, hdata, hvalue⟩⟩ := h
  · exact ⟨path, hn, .inl ⟨hno, h.extend hstop⟩⟩
  · refine ⟨path, hn, .inr ⟨hyes, h.extend hstop, ?_, a, ?_, hvalue⟩⟩
    · rw [Draft.size_extend]
      exact hlast
    · rw [Draft.currentData_extend]
      exact hdata

theorem AttributeOpen.reportLexical (h : AttributeOpen text m rest pos xs d) (error : LexError)
    (span : Span) : AttributeOpen text m rest pos xs (d.reportLexical error span) := by
  obtain ⟨path, hn, ⟨hno, h⟩ | ⟨hyes, h, hopen⟩⟩ := h
  · exact ⟨path, hn, .inl ⟨hno, h.reportLexical error span⟩⟩
  · exact ⟨path, hn, .inr ⟨hyes, h.reportLexical error span, hopen⟩⟩

theorem Synced.reportLexical (h : Synced text m rest pos xs d) (error : LexError) (span : Span) :
    Synced text m rest pos xs (d.reportLexical error span) := by
  have hstands {path : List NodeKind} (h : d.Stands pieces .template text pos path xs) :
      (d.reportLexical error span).Stands pieces .template text pos path xs :=
    h.reportLexical error span
  unfold Synced at h ⊢
  split at h
  · exact h.imp fun path h => ⟨h.1, hstands h.2⟩
  · exact h.imp fun path h => ⟨h.1, hstands h.2⟩
  · exact h.imp fun path h => ⟨h.1, hstands h.2⟩
  · exact h.imp fun path h => ⟨h.1, hstands h.2⟩
  · exact h.imp fun path h => ⟨h.1, hstands h.2⟩
  · exact ⟨h.1, h.2.imp fun path h => ⟨h.1, hstands h.2⟩⟩
  · exact h.imp fun path h => ⟨h.1, hstands h.2⟩
  · exact h.imp fun path h => ⟨h.1, hstands h.2⟩
  · exact AttributeOpen.reportLexical h error span
  · exact AttributeOpen.reportLexical h error span
  · exact AttributeOpen.reportLexical h error span
  · exact ⟨h.1, h.2.imp fun path h =>
      ⟨h.1, h.2.imp (fun h => ⟨h.1, hstands h.2⟩) fun h => ⟨h.1, h.2.1, hstands h.2.2⟩⟩⟩
  · exact h

/-- The fault of a token does not matter. -/
theorem Synced.takeToken (h : Synced text m rest pos xs (d.build t)) :
    Synced text m rest pos xs (d.takeToken t) := by
  unfold Draft.takeToken
  split
  · exact h.reportLexical _ _
  · exact h

/-! ## What the rules of a template do -/

theorem leaveAttribute_of_nested (hn : Nested path)
    (h : d.Stands pieces .template text pos path xs) : d.leaveAttribute = d := by
  obtain ⟨k, path', rfl, _, hk⟩ := hn.exists_cons
  have hkind : d.currentData.kind = k := h.kind_eq
  unfold Draft.leaveAttribute
  split
  · next heq =>
    rw [heq] at hkind
    rcases hk with rfl | rfl <;> simp [NodeData.kind] at hkind
  · next heq =>
    rw [heq] at hkind
    rcases hk with rfl | rfl <;> simp [NodeData.kind] at hkind
  · rfl

theorem leaveAttribute_of_attribute (h : d.currentKind = .attr ∨ d.currentKind = .directive) :
    d.leaveAttribute = d.ascend := by
  have hkind : d.currentData.kind = .attr ∨ d.currentData.kind = .directive := h
  unfold Draft.leaveAttribute
  cases hdata : d.currentData <;> rw [hdata] at hkind <;> simp [NodeData.kind] at hkind ⊢

/-- From within a start tag one comes back to the element. -/
theorem leaveAttribute_stands (htag : TagPath path)
    (h : d.Stands pieces .template text pos path xs) :
    ∃ outer, Nested outer ∧
      d.leaveAttribute.Stands pieces .template text pos (.element :: outer) xs := by
  obtain ⟨outer, hn, rfl | rfl | rfl⟩ := htag
  · rw [leaveAttribute_of_nested hn.element h]
    exact ⟨outer, hn, h⟩
  · rw [leaveAttribute_of_attribute (.inl h.kind_eq)]
    exact ⟨outer, hn, h.ascend⟩
  · rw [leaveAttribute_of_attribute (.inr h.kind_eq)]
    exact ⟨outer, hn, h.ascend⟩

theorem attributeValue_current (d : Draft) (span : Span) :
    (d.attributeValue span).current = d.current := by
  unfold Draft.attributeValue
  dsimp only
  split <;> rfl

/-- A value that is not that of a directive is no code. -/
theorem attributeValue_stands {k : NodeKind} {span : Span} (hk : k ≠ .directive)
    (h : d.Stands pieces .template text pos (k :: path) xs) (hcuts : span.Cuts text) :
    (d.attributeValue span).Stands pieces .template text pos (k :: path) xs := by
  have hkind : d.currentData.kind = k := h.kind_eq
  unfold Draft.attributeValue
  dsimp only
  split
  · next a hdata =>
    refine Draft.Stands.extend ?_ hcuts.stop
    have hsound := h.sound d.current h.current_lt
    rw [show d.tree.data d.current = .attr a from hdata] at hsound
    refine h.setSilent _ (Tree.kind_of_data hdata).symm rfl ?_
    intro valueSpan hvalue
    rw [Option.some.injEq] at hvalue
    subst hvalue
    rw [h.text_eq]
    refine ⟨?_, rfl⟩
    cases hold : a.valueSpan with
    | none => exact hcuts
    | some old => exact (hsound old hold).1.cover hcuts
  · next a hdata =>
    rw [hdata] at hkind
    exact absurd hkind.symm hk
  · exact h

theorem gatherAt_directive {directive : Directive}
    (hdata : d.currentData = .directive directive) :
    d.tree.gatherAt pieces d.current =
      (match directive.valueSpan with
        | some valueSpan => (Piece.code d.current valueSpan).list
        | none => []) := by
  rw [Tree.gatherAt, show d.tree.data d.current = .directive directive from hdata]
  rfl

/-- The value of a directive is read once. Where it stands still it is read again and again, but
from then on there is nothing in it. -/
theorem directiveValue_stands {k : NodeKind}
    (h : d.Stands pieces .template text pos (k :: path) xs) (hopen : DirectiveOpen m u pos d)
    (ht : t.Reads text pos pos') (state : m.state = .value)
    (hagain : AtValueEnd m u → t.span.start = t.span.stop) (hend : AtValueEnd m rest) :
    (d.attributeValue t.span).Stands pieces .template text pos' (k :: path)
        (xs ++ (Piece.code d.current t.span).list) ∧
      DirectiveOpen m rest pos' (d.attributeValue t.span) := by
  obtain ⟨hlast, directive, hdata, hvalue⟩ := hopen
  have hcurrent := h.current_lt
  have hkind : NodeKind.directive = d.currentKind := (Tree.kind_of_data hdata).symm
  have hsound := h.sound d.current hcurrent
  rw [show d.tree.data d.current = .directive directive from hdata] at hsound
  have h := h.mono ht.le
  rcases hvalue with hnone | ⟨span, hspan, hstop, _, hatEnd⟩
  · have hfill := h.fill hlast
      (.directive { directive with value := some (slice text t.span), valueSpan := some t.span })
      hkind (fun _ hvalue => Option.some.inj hvalue ▸ ⟨ht.cuts, rfl⟩)
      (by rw [gatherAt_directive hdata, hnone]; exact (List.append_nil xs).symm)
    simp only [Draft.attributeValue, hdata, hnone, Option.map_none, Option.getD_none, h.text_eq]
    refine ⟨hfill.extend ht.cuts.stop, ?_,
      { directive with value := some (slice text t.span), valueSpan := some t.span }, ?_,
      .inr ⟨t.span, rfl, ht.stop, state, hend⟩⟩
    · rw [Draft.size_extend, Draft.size_setCurrent]
      exact hlast
    · rw [Draft.currentData_extend]
      exact Draft.currentData_setCurrent _ hcurrent
  · have hempty := hagain hatEnd
    have hordered := (hsound span hspan).1.ordered
    -- the new value is empty and stands at the end of the old one, which covers it already
    have hcover : span.cover t.span = span := by
      have hstart := ht.start
      rw [Span.cover, ← hempty, hstart, ← hstop, Nat.min_eq_left hordered, Nat.max_self]
    have hlist : (Piece.code d.current t.span).list = [] :=
      if_neg fun hcovers : t.span.start < t.span.stop => Nat.ne_of_lt hcovers hempty
    have hset := h.setData (i := d.current)
      (.directive { directive with value := some (slice text span), valueSpan := some span })
      hkind (fun _ hvalue => Option.some.inj hvalue ▸ ⟨(hsound span hspan).1, rfl⟩)
      (by rw [gatherAt_directive hdata, hspan]; rfl)
    simp only [Draft.attributeValue, hdata, hspan, Option.map_some, Option.getD_some, h.text_eq,
      hcover, hlist, List.append_nil]
    refine ⟨hset.extend ht.cuts.stop, ?_,
      { directive with value := some (slice text span), valueSpan := some span }, ?_,
      .inr ⟨span, rfl, ?_, state, hend⟩⟩
    · rw [Draft.size_extend, Draft.size_setCurrent]
      exact hlast
    · rw [Draft.currentData_extend]
      exact Draft.currentData_setCurrent _ hcurrent
    · rw [hstop, ← ht.start, hempty, ht.stop]

/-- The code in a mustache is read once. -/
theorem mustacheContent_stands {k : NodeKind}
    (h : d.Stands pieces .template text pos (k :: path) xs) (hopen : MustacheOpen u d)
    (hu : u ≠ []) (hmore : startsWith mustacheClosing u = false) (ht : t.Reads text pos pos')
    (hend : rest = [] ∨ startsWith mustacheClosing rest = true) :
    (d.mustacheContent t).Stands pieces .template text pos' (k :: path)
        (xs ++ (Piece.code d.current t.span).list) ∧
      MustacheOpen rest (d.mustacheContent t) := by
  obtain ⟨hlast, code, inner, hdata, hnothing⟩ := hopen
  -- had the code been read before, the closing braces would stand here
  have hempty : ¬ inner.Covers := by
    rcases hnothing with hempty | hnil | hclosing
    · exact hempty
    · exact absurd hnil hu
    · rw [hmore] at hclosing
      simp at hclosing
  have hgather : d.tree.gatherAt pieces d.current = [] := by
    rw [Tree.gatherAt, show d.tree.data d.current = .mustache code inner from hdata]
    exact if_neg hempty
  have hfill := (h.mono ht.le).fill hlast (.mustache t.lexeme t.span)
    (Tree.kind_of_data hdata).symm
    ⟨ht.cuts, ht.lexeme⟩ (by rw [hgather]; exact (List.append_nil xs).symm)
  simp only [Draft.mustacheContent, hdata]
  refine ⟨hfill.extend ht.cuts.stop, ?_, t.lexeme, t.span, ?_, .inr hend⟩
  · rw [Draft.size_extend, Draft.size_setCurrent]
    exact hlast
  · rw [Draft.currentData_extend]
    exact Draft.currentData_setCurrent _ h.current_lt

/-- The braces that open a mustache. -/
theorem mustacheStart_stands {k : NodeKind} (hnests : Dialect.template.nests k = true)
    (h : d.Stands pieces .template text pos (k :: path) xs) (ht : t.Reads text pos pos')
    (rest : Text) :
    (d.mustacheStart t).Stands pieces .template text pos' (.mustache :: k :: path) xs ∧
      MustacheOpen rest (d.mustacheStart t) := by
  have hle : t.span.start ≤ pos' := ht.start ▸ ht.le
  have hopen := (h.mono ht.le).openNode hnests (.mustache [] (Span.empty t.span.stop)) rfl rfl
    ht.cuts hle ⟨Span.cuts_empty ht.cuts.stop, (Span.slice_empty _ _).symm⟩
  have hempty : ¬ (Span.empty t.span.stop).Covers := Nat.lt_irrefl _
  refine ⟨?_, Draft.openNode_last .., [], Span.empty t.span.stop,
    Draft.currentData_openNode _ _ h.current_lt, .inl hempty⟩
  rwa [show pieces.of d.tree.size (some d.current) (.mustache [] (Span.empty t.span.stop)) t.span
    = [] from if_neg hempty, List.append_nil] at hopen

/-- The braces that close a mustache. If it stands in an attribute, it is part of the value. -/
theorem mustacheEnd_stands {k : NodeKind} (hk : k ≠ .directive)
    (h : d.Stands pieces .template text pos (.mustache :: k :: path) xs)
    (ht : t.Reads text pos pos') :
    (d.mustacheEnd t).Stands pieces .template text pos' (k :: path) xs := by
  have hkind : d.currentData.kind = .mustache := h.kind_eq
  have hclose := (h.mono ht.le).close ht.cuts.stop
  -- the node of the mustache is looked at once more after it was closed
  have hcurrent : d.current < (d.close t.span.stop).tree.size := by
    have hsize : (d.close t.span.stop).tree.size = d.tree.size := by
      unfold Draft.close Draft.ascend
      dsimp only
      split
      · exact Tree.size_setSpan ..
      · exact (Tree.size_setSpan ..).trans (Tree.size_setSpan ..)
    rw [hsize]
    exact h.current_lt
  unfold Draft.mustacheEnd
  split
  · exact attributeValue_stands hk hclose (hclose.cuts d.current hcurrent).1
  · next hmustache =>
    cases hdata : d.currentData <;> rw [hdata] at hkind <;> simp [NodeData.kind] at hkind
    exact absurd hdata (hmustache _ _)

theorem close_of_nested {stop : Nat} (hn : Nested path)
    (h : d.Stands pieces .template text pos path xs) (hstop : isBoundary stop text = true) :
    ∃ path, Nested path ∧ (d.close stop).Stands pieces .template text pos path xs := by
  cases hn with
  | root => exact ⟨[.root], .root, h.close_root hstop⟩
  | element outer =>
    obtain ⟨k, path', rfl, _⟩ := outer.exists_cons
    exact ⟨_, outer, h.close hstop⟩

/-- What an end tag closes are elements. -/
theorem closeDownTo_stands (target : Nat) {start : Nat} (hstart : isBoundary start text = true)
    (fuel : Nat) : ∀ {path d}, Nested path → d.Stands pieces .template text pos path xs →
      ∃ path, Nested path ∧
        (Draft.closeDownTo target start fuel d).Stands pieces .template text pos path xs := by
  induction fuel with
  | zero => exact fun {path d} hn h => ⟨path, hn, h⟩
  | succ fuel ih =>
    intro path d hn h
    unfold Draft.closeDownTo
    split
    · exact ⟨path, hn, h⟩
    -- whatever is reported of the element, closing it leads to one that is nested less deep
    · obtain ⟨d', h', hclose⟩ := (h.setEndTagStart d.current start).exists_close start
      obtain ⟨path, hn, hnext⟩ := close_of_nested hn h' hstart
      rw [hclose]
      exact ih hn hnext

/-- **An end tag leaves elements open**, or the root. -/
theorem endTagClose_stands {stop : Nat} (hn : Nested path)
    (h : d.Stands pieces .template text pos path xs) (hstop : isBoundary stop text = true) :
    ∃ path, Nested path ∧ (d.endTagClose stop).Stands pieces .template text pos path xs := by
  unfold Draft.endTagClose
  split
  · exact ⟨path, hn, h⟩
  · next name _ =>
    have hnext : ({ d with endTagName := none } : Draft).Stands pieces .template text pos path xs :=
      h.of_tree rfl rfl h.endTag
    dsimp only
    split
    · exact ⟨path, hn, hnext.report _ _⟩
    · next target _ =>
      obtain ⟨path, hn, hclosed⟩ :=
        closeDownTo_stands target h.endTag d.tree.size hn hnext
      exact close_of_nested hn (hclosed.setEndTagStart target d.endTagStart) hstop

/-- An attribute is opened within the element. -/
theorem attributeName_stands {k : NodeKind} (htag : TagPath path)
    (h : d.Stands pieces .template text pos path xs) (ht : t.Reads text pos pos')
    (data : NodeData) (hkind : data.kind = k) (hopens : k.opens = true)
    (hsound : data.Sound text t.span)
    (hnothing : ∀ i p span, pieces.of i p data span = []) :
    ∃ outer, Nested outer ∧
      (d.attributeName t data).Stands pieces .template text pos' (k :: .element :: outer) xs ∧
      (d.attributeName t data).current + 1 = (d.attributeName t data).tree.size ∧
      (d.attributeName t data).currentData = data := by
  have hle : t.span.start ≤ pos' := ht.start ▸ ht.le
  obtain ⟨outer, hn, hleave⟩ := leaveAttribute_stands htag h
  have hopened := (hleave.mono ht.le).openNode rfl data hkind hopens ht.cuts hle hsound
  rw [hnothing, List.append_nil] at hopened
  have hdata := Draft.currentData_openNode data t.span hleave.current_lt
  have hlast := Draft.openNode_last d.leaveAttribute data t.span
  refine ⟨outer, hn, ?_⟩
  unfold Draft.attributeName
  dsimp only
  split
  · exact ⟨hopened.report _ _, hlast, hdata⟩
  · exact ⟨hopened, hlast, hdata⟩

/-- A start tag ends, and with it the element if it has no content. -/
theorem startTagClose_stands (htag : TagPath path)
    (h : d.Stands pieces .template text pos path xs) (ht : t.Reads text pos pos') :
    ∃ path, Nested path ∧ (d.startTagClose t).Stands pieces .template text pos' path xs := by
  obtain ⟨outer, hn, hleave⟩ := leaveAttribute_stands htag h
  have hleave := hleave.mono ht.le
  unfold Draft.startTagClose
  dsimp only
  split
  · next e hdata =>
    have hset := hleave.setSilent (i := d.leaveAttribute.current)
      (.element { e with startTagEnd := some t.span.stop })
      (Tree.kind_of_data hdata).symm rfl trivial
    split
    · exact close_of_nested hn.element hset ht.cuts.stop
    · exact ⟨_, hn.element, hset.extend ht.cuts.stop⟩
  · exact ⟨_, hn.element, hleave.extend ht.cuts.stop⟩

theorem startTagSelfClose_stands (htag : TagPath path)
    (h : d.Stands pieces .template text pos path xs) (ht : t.Reads text pos pos') :
    ∃ path, Nested path ∧ (d.startTagSelfClose t).Stands pieces .template text pos' path xs := by
  obtain ⟨outer, hn, hleave⟩ := leaveAttribute_stands htag h
  have hleave := hleave.mono ht.le
  unfold Draft.startTagSelfClose
  dsimp only
  split
  · next e hdata =>
    have hset := hleave.setSilent (i := d.leaveAttribute.current)
      (.element { e with selfClose := true, startTagEnd := some t.span.stop })
      (Tree.kind_of_data hdata).symm rfl trivial
    exact close_of_nested hn.element hset ht.cuts.stop
  · exact ⟨_, hn.element, hleave⟩

/-- However a directive is written, its name is read as parts. -/
theorem ofRaw_eq_ofParts (raw : Text) : ∃ name rest hasArg isShorthand,
    Directive.ofRaw raw = Directive.ofParts name rest hasArg isShorthand := by
  have hlong (body : Text) : ∃ name rest hasArg isShorthand,
      Directive.ofLongForm body = Directive.ofParts name rest hasArg isShorthand := by
    unfold Directive.ofLongForm
    dsimp only
    split
    · exact ⟨_, _, _, _, rfl⟩
    · exact ⟨_, _, _, _, rfl⟩
  unfold Directive.ofRaw
  split
  · exact hlong []
  · split
    · exact ⟨_, _, _, _, rfl⟩
    · exact hlong _

/-- Before its value is read a directive has none. -/
theorem value_ofRaw (raw : Text) : (Directive.ofRaw raw).value = none := by
  obtain ⟨name, rest, hasArg, isShorthand, heq⟩ := ofRaw_eq_ofParts raw
  rw [heq]
  rfl

theorem valueSpan_ofRaw (raw : Text) : (Directive.ofRaw raw).valueSpan = none := by
  obtain ⟨name, rest, hasArg, isShorthand, heq⟩ := ofRaw_eq_ofParts raw
  rw [heq]
  rfl

/-! ## One step -/

/-- A change of context is none of the draft. -/
theorem Synced.turns (h : Synced text m u pos xs d) (hturn : m.Turns u m') :
    Synced text m' u pos xs d := by
  cases hturn with
  | noValue state =>
    simp only [Synced, state] at h
    simp only [Synced, Memory.goto]
    exact h.exists_tagPath
  | noQuote state =>
    simp only [Synced, state] at h
    simp only [Synced]
    exact h.onward (by rw [state]; decide) rfl (Nat.le_refl _)
  | valueEnds state mark =>
    simp only [Synced, state] at h
    simp only [Synced, Memory.goto]
    exact h.exists_tagPath
  | noStartName state =>
    simp only [Synced, state] at h
    simp only [Synced]
    obtain ⟨path, hn, h⟩ := h
    exact ⟨_, ⟨path, hn, .inl rfl⟩, h⟩
  | noEndName state =>
    simp only [Synced, state] at h
    simp only [Synced, Memory.goto]
    exact h
  | noBody state =>
    rcases state with state | state <;> simp only [Synced, state] at h <;>
      simp only [Synced, Memory.goto]
    · exact h
    · exact h

variable {before : Option Char} {kind : TokenKind} {error : Option LexError}

/-- Whitespace and what has no place change nothing in the draft. -/
theorem build_of_idle (hkind : t.kind = .whitespace ∨ t.kind = .unknown) : d.build t = d := by
  rcases hkind with hkind | hkind <;> simp only [Draft.build, hkind]

theorem tokenPiece_of_idle (hkind : t.kind = .whitespace ∨ t.kind = .unknown)
    (inDirective : Bool) (owner : Nat) : tokenPiece inDirective owner t = [] := by
  rcases hkind with hkind | hkind <;> simp only [tokenPiece, hkind]

theorem bodyState_cases (tag : Text) :
    Memory.bodyState tag = .scriptBody ∨ Memory.bodyState tag = .styleBody ∨
      Memory.bodyState tag = .content := by
  unfold Memory.bodyState
  split
  · exact .inl rfl
  · exact .inr (.inl rfl)
  · exact .inr (.inr rfl)

/-- The code of a mustache or of a directive's value is read up to what closes it. -/
theorem skipUntil_ends (terminator : Text) (u : Text) :
    (HostCode.skipUntil terminator u).getD [] = [] ∨
      startsWith terminator ((HostCode.skipUntil terminator u).getD []) = true := by
  cases hskip : HostCode.skipUntil terminator u with
  | none => exact .inl rfl
  | some rest => exact .inr (HostCode.skipUntilIn_startsWith _ _ _ _ hskip)

/-- **A token of a template keeps the scanner and the draft in step**, and its code is code of the
tree. -/
theorem Synced.step (h : Synced text m u pos xs d) (hu : u ≠ [])
    (hy : m.Yields .template before u kind error rest m') (ht : t.Reads text pos pos')
    (hkind : t.kind = kind) (hreads : u = t.lexeme ++ rest) :
    Synced text m' rest pos' (xs ++ tokenPiece m.inDirective (d.build t).current t)
      (d.build t) := by
  have hle : t.span.start ≤ pos' := ht.start ▸ ht.le
  -- many rules only move the scanner on, and leave no code
  have hidle {m' : Memory} {rest : Text} (hk : t.kind = .whitespace ∨ t.kind = .unknown)
      (h : Synced text m' rest pos' xs d) :
      Synced text m' rest pos' (xs ++ tokenPiece m.inDirective (d.build t).current t)
        (d.build t) := by
    rw [build_of_idle hk, tokenPiece_of_idle hk, List.append_nil]
    exact h
  cases hy with
  | codeBlockStart _ prose _ => exact absurd rfl prose
  | importStatement _ mdx _ | closedExpression _ mdx _ | openExpression _ mdx _
  | jsxExpression _ mdx _ => simp at mdx
  | proseText state _ =>
    rcases state with ⟨_, prose⟩ | state
    · exact absurd rfl prose
    · simp only [Synced, state] at h
  | paragraphEnd state _ | fenceLineEnd state _ | fenceLineSpace state _
  | codeBlockAttribute state _ | codeBlockEnd state _ | codeBlockContent state _ _ =>
    simp only [Synced, state] at h
  | space state read =>
    refine hidle (.inl hkind) ?_
    rcases state with state | state | state <;> simp only [Synced, state] at h ⊢
    · exact h.imp fun path h => ⟨h.1, h.2.mono ht.le⟩
    · exact h.onward (by rw [state]; decide) rfl ht.le
    · exact h.imp fun path h => ⟨h.1, h.2.mono ht.le⟩
  | tagSpace state read =>
    refine hidle (.inl hkind) ?_
    rcases state with state | state <;> simp only [Synced, state] at h ⊢
    · exact h.imp fun path h => ⟨h.1, h.2.mono ht.le⟩
    · exact h.onward (by rw [state]; decide) rfl ht.le
  | valueSpace state mark read =>
    refine hidle (.inl hkind) ?_
    simp only [Synced, state] at h ⊢
    exact h.exists_tagPath.imp fun path h => ⟨h.1, h.2.mono ht.le⟩
  | nameSpace state read =>
    refine hidle (.inl hkind) ?_
    rcases state with state | state <;> simp only [Synced, state] at h ⊢
    · exact h.imp fun path h => ⟨h.1, h.2.mono ht.le⟩
    · exact h.imp fun path h => ⟨h.1, h.2.mono ht.le⟩
  | namelessStart state read =>
    refine hidle (.inr hkind) ?_
    simp only [Synced, state] at h ⊢
    obtain ⟨path, hn, h⟩ := h
    exact ⟨_, ⟨path, hn, .inl rfl⟩, h.mono ht.le⟩
  | strayInStartTag state read =>
    refine hidle (.inr hkind) ?_
    simp only [Synced, state] at h ⊢
    exact h.imp fun path h => ⟨h.1, h.2.mono ht.le⟩
  | namelessEnd state read =>
    refine hidle (.inr hkind) ?_
    simp only [Synced, state, Memory.goto] at h ⊢
    exact h.imp fun path h => ⟨h.1, h.2.mono ht.le⟩
  | strayInEndTag state read =>
    refine hidle (.inr hkind) ?_
    simp only [Synced, state] at h ⊢
    exact h.imp fun path h => ⟨h.1, h.2.mono ht.le⟩
  -- comments
  | commentStart state read =>
    rcases state with state | state <;> simp only [Synced, state] at h
    obtain ⟨path, hn, h⟩ := h
    simp only [Synced, Memory.enter, state, tokenPiece, Draft.build, hkind, List.append_nil,
      true_and]
    refine ⟨path, hn, ?_⟩
    obtain ⟨k, path', rfl, hnests, _⟩ := hn.exists_cons
    have hopen := (h.mono ht.le).openNode hnests (.comment []) rfl rfl ht.cuts hle trivial
    rwa [show pieces.of d.tree.size (some d.current) (.comment []) t.span = [] from rfl,
      List.append_nil] at hopen
  | commentContent state read =>
    simp only [Synced, state] at h
    obtain ⟨hreturn, path, hn, h⟩ := h
    have h := h.mono ht.le
    simp only [Synced, state, tokenPiece, Draft.build, hkind, List.append_nil]
    refine ⟨hreturn, path, hn, Draft.Stands.extend ?_ ht.cuts.stop⟩
    split
    · next old hdata =>
      exact h.setSilent (.comment (old ++ t.lexeme)) (Tree.kind_of_data hdata).symm rfl trivial
    · exact h
  | commentEnd state read =>
    simp only [Synced, state] at h
    obtain ⟨hreturn, path, hn, h⟩ := h
    obtain ⟨k, path', rfl, _⟩ := hn.exists_cons
    simp only [Synced, Memory.leave, hreturn, tokenPiece, Draft.build, hkind, List.append_nil]
    rw [if_pos h.kind_eq]
    exact ⟨_, hn, (h.mono ht.le).close ht.cuts.stop⟩
  -- between the tags
  | templateText state _ read =>
    simp only [Synced, state] at h
    obtain ⟨path, hn, h⟩ := h
    obtain ⟨k, path', rfl, hnests, _⟩ := hn.exists_cons
    have h := h.mono ht.le
    simp only [Synced, state, tokenPiece, Draft.build, hkind, List.append_nil, h.dialect_eq,
      if_true, Draft.templateText]
    refine ⟨_, hn, ?_⟩
    split
    · exact h
    · have hleaf := h.leaf hnests (.text t.lexeme) ht.cuts hle trivial
      rwa [show pieces.of d.tree.size (some d.current) (.text t.lexeme) t.span = [] from rfl,
        List.append_nil] at hleaf
  | contentMustache state _ read =>
    simp only [Synced, state] at h
    obtain ⟨path, hn, h⟩ := h
    obtain ⟨k, path', rfl, hnests, _⟩ := hn.exists_cons
    obtain ⟨hstands, hopen⟩ := mustacheStart_stands hnests h ht rest
    simp only [Synced, Memory.enter, state, tokenPiece, Draft.build, hkind, List.append_nil]
    exact ⟨hopen, _, hn, .inl ⟨trivial, hstands⟩⟩
  | rawText e state body read =>
    have hbuild : d.build t = d.leaf (.rawText t.lexeme) t.span := by simp only [Draft.build, hkind]
    have hraw : ∃ path, Nested path ∧ d.Stands pieces .template text pos path xs := by
      cases e <;> simp only [Synced, state] at h
      · exact h
      · exact h
    obtain ⟨path, hn, h⟩ := hraw
    obtain ⟨k, path', rfl, hnests, _⟩ := hn.exists_cons
    simp only [Synced, Memory.goto, hbuild, tokenPiece, hkind]
    exact ⟨_, hn, (h.mono ht.le).leaf hnests (.rawText t.lexeme) ht.cuts hle ht.lexeme⟩
  -- tags
  | startTagOpen state _ read =>
    simp only [Synced, state] at h
    obtain ⟨path, hn, h⟩ := h
    simp only [Synced, Memory.goto, tokenPiece, Draft.build, hkind, List.append_nil,
      Draft.startTagOpen, leaveAttribute_of_nested hn h]
    refine ⟨path, hn, ?_⟩
    obtain ⟨k, path', rfl, hnests, _⟩ := hn.exists_cons
    have hopen := (h.mono ht.le).openNode hnests (.element {}) rfl rfl ht.cuts hle trivial
    rwa [show pieces.of d.tree.size (some d.current) (.element {}) t.span = [] from rfl,
      List.append_nil] at hopen
  | startTag state read =>
    simp only [Synced, state] at h
    obtain ⟨path, hn, h⟩ := h
    have h := h.mono ht.le
    simp only [Synced, tokenPiece, Draft.build, hkind, List.append_nil, Draft.startTag]
    refine ⟨_, ⟨path, hn, .inl rfl⟩, Draft.Stands.extend ?_ ht.cuts.stop⟩
    split
    · next e hdata =>
      exact h.setSilent (.element { e with tag := t.lexeme }) (Tree.kind_of_data hdata).symm rfl
        trivial
    · exact h
  | selfClose state read =>
    simp only [Synced, state] at h
    obtain ⟨path, htag, h⟩ := h
    simp only [Synced, Memory.goto, tokenPiece, Draft.build, hkind, List.append_nil]
    exact startTagSelfClose_stands htag h ht
  | startTagClose state read =>
    simp only [Synced, state] at h
    obtain ⟨path, htag, h⟩ := h
    have hclose := startTagClose_stands htag h ht
    simp only [Synced, Memory.goto, tokenPiece, Draft.build, hkind, List.append_nil]
    rcases bodyState_cases m.lastTag with hbody | hbody | hbody <;> rw [hbody]
    · exact hclose
    · exact hclose
    · exact hclose
  | startTagBroken state read =>
    simp only [Synced, state] at h
    obtain ⟨path, htag, h⟩ := h
    simp only [Synced, Memory.goto, tokenPiece, Draft.build, hkind, List.append_nil]
    exact startTagClose_stands htag h ht
  | endTagOpen state _ read =>
    simp only [Synced, state] at h
    obtain ⟨path, hn, h⟩ := h
    simp only [Synced, Memory.goto, tokenPiece, Draft.build, hkind, List.append_nil,
      Draft.endTagOpen, leaveAttribute_of_nested hn h]
    exact ⟨path, hn, (h.mono ht.le).of_tree rfl rfl ht.cuts.start⟩
  | endTag state read =>
    simp only [Synced, state] at h
    obtain ⟨path, hn, h⟩ := h
    simp only [Synced, Memory.goto, tokenPiece, Draft.build, hkind, List.append_nil,
      Draft.endTagNamed]
    exact ⟨path, hn, (h.mono ht.le).of_tree rfl rfl h.endTag⟩
  | endTagClose state read =>
    simp only [Synced, state] at h
    obtain ⟨path, hn, h⟩ := h
    simp only [Synced, Memory.goto, tokenPiece, Draft.build, hkind, List.append_nil]
    exact endTagClose_stands hn (h.mono ht.le) ht.cuts.stop
  | endTagBroken state read =>
    simp only [Synced, state] at h
    obtain ⟨path, hn, h⟩ := h
    simp only [Synced, Memory.goto, tokenPiece, Draft.build, hkind, List.append_nil]
    exact endTagClose_stands hn (h.mono ht.le) ht.cuts.stop
  -- attributes
  | attributeName state space read name =>
    simp only [Synced, state] at h
    obtain ⟨path, htag, h⟩ := h
    obtain ⟨outer, hn, hopen, _, _⟩ := attributeName_stands htag h ht
      (.attr { name := t.lexeme }) rfl rfl (fun _ hvalue => by simp at hvalue) fun _ _ _ => rfl
    simp only [Synced, tokenPiece, Draft.build, hkind, List.append_nil]
    exact ⟨outer, hn, .inl ⟨rfl, hopen⟩⟩
  | directiveName state space read name =>
    have hnone := valueSpan_ofRaw t.lexeme
    simp only [Synced, state] at h
    obtain ⟨path, htag, h⟩ := h
    obtain ⟨outer, hn, hopen, hlast, hdata⟩ := attributeName_stands htag h ht
      (.directive (Directive.ofRaw t.lexeme)) rfl rfl
      (fun _ hvalue => by simp [hnone] at hvalue)
      fun _ _ _ => by simp only [pieces, hnone]
    simp only [Synced, tokenPiece, Draft.build, hkind, List.append_nil]
    exact ⟨outer, hn, .inr ⟨rfl, hopen, hlast, _, hdata, .inl hnone⟩⟩
  | attributeDelimiter state read =>
    simp only [Synced, state] at h
    simp only [Synced, Memory.goto, tokenPiece, Draft.build, hkind, List.append_nil]
    exact (AttributeOpen.extend h ht.cuts.stop).onward (by rw [state]; decide) rfl ht.le
  | openingMark state read quote =>
    simp only [Synced, state] at h
    simp only [Synced, tokenPiece, Draft.build, hkind, List.append_nil]
    exact (AttributeOpen.extend h ht.cuts.stop).onward (by rw [state]; decide) rfl ht.le
  | closingMark state quoted read =>
    simp only [Synced, state] at h
    simp only [Synced, tokenPiece, Draft.build, hkind, List.append_nil]
    exact h.exists_tagPath.imp fun path h => ⟨h.1, (h.2.mono ht.le).extend ht.cuts.stop⟩
  | unquotedValue state mark here space bracket slash =>
    have hbuild : d.build t = d.attributeValue t.span := by simp only [Draft.build, hkind]
    have hend : AtValueEnd m (seek atUnquotedEnd u) := by
      by_cases hnil : seek atUnquotedEnd u = []
      · exact .inl hnil
      · exact .inr (.inl ⟨mark, seek_stops hnil⟩)
    have hagain (hatEnd : AtValueEnd m u) : t.span.start = t.span.stop := by
      refine ht.empty ?_
      rcases hatEnd with hnil | ⟨_, hstop⟩ | ⟨_, hmark, _⟩
      · exact absurd hnil hu
      · rw [here] at hstop hreads
        simpa [seek, hstop] using hreads
      · rw [mark] at hmark
        simp at hmark
    simp only [Synced, state] at h ⊢
    rw [hbuild]
    obtain ⟨path, hn, ⟨hno, h⟩ | ⟨hyes, h, hopen⟩⟩ := h
    · simp only [tokenPiece, hkind, hno, Bool.false_eq_true, if_false, List.append_nil]
      exact ⟨path, hn, .inl ⟨hno, attributeValue_stands (by decide) (h.mono ht.le) ht.cuts⟩⟩
    · obtain ⟨hstands, hopen⟩ := directiveValue_stands h hopen ht state hagain hend
      have howner : (d.attributeValue t.span).current = d.current := attributeValue_current d t.span
      simp only [tokenPiece, hkind, hyes, if_true, howner]
      exact ⟨path, hn, .inr ⟨hyes, hstands, hopen⟩⟩
  | directiveValue state quoted directive here =>
    rename_i mark
    have hbuild : d.build t = d.attributeValue t.span := by simp only [Draft.build, hkind]
    have hend : AtValueEnd m ((HostCode.skipUntil [mark] u).getD []) :=
      (skipUntil_ends [mark] u).imp_right fun hmark => .inr ⟨mark, quoted, hmark⟩
    have hagain (hatEnd : AtValueEnd m u) : t.span.start = t.span.stop := by
      rcases hatEnd with hnil | ⟨hmark, _⟩ | ⟨mark', hmark, hstarts⟩
      · exact absurd hnil hu
      · rw [quoted] at hmark
        simp at hmark
      · rw [quoted, Option.some.injEq] at hmark
        rw [← hmark, here] at hstarts
        simp at hstarts
    simp only [Synced, state] at h ⊢
    rw [hbuild]
    obtain ⟨path, hn, ⟨hno, _⟩ | ⟨hyes, h, hopen⟩⟩ := h
    · rw [directive] at hno
      simp at hno
    · obtain ⟨hstands, hopen⟩ := directiveValue_stands h hopen ht state hagain hend
      have howner : (d.attributeValue t.span).current = d.current := attributeValue_current d t.span
      simp only [tokenPiece, hkind, hyes, if_true, howner]
      exact ⟨path, hn, .inr ⟨hyes, hstands, hopen⟩⟩
  | quotedValue state quoted directive here =>
    simp only [Synced, state] at h
    obtain ⟨path, hn, ⟨hno, h⟩ | ⟨hyes, _⟩⟩ := h
    · simp only [Synced, state, tokenPiece, Draft.build, hkind, hno, Bool.false_eq_true, if_false,
        List.append_nil]
      exact ⟨path, hn, .inl ⟨hno, attributeValue_stands (by decide) (h.mono ht.le) ht.cuts⟩⟩
    · rw [directive] at hyes
      simp at hyes
  | valueMustache state quoted directive read =>
    simp only [Synced, state] at h
    obtain ⟨path, hn, ⟨hno, h⟩ | ⟨hyes, _⟩⟩ := h
    · obtain ⟨hstands, hopen⟩ := mustacheStart_stands rfl h ht rest
      simp only [Synced, Memory.enter, state, tokenPiece, Draft.build, hkind, List.append_nil]
      exact ⟨hopen, path, hn, .inr ⟨trivial, hno, hstands⟩⟩
    · rw [directive] at hyes
      simp at hyes
  -- mustaches
  | mustacheContent state here =>
    have hend := skipUntil_ends mustacheClosing u
    simp only [Synced, state] at h
    obtain ⟨hopen, path, hn, h⟩ := h
    have hbuild : d.build t = d.mustacheContent t := by simp only [Draft.build, hkind]
    have howner : (d.mustacheContent t).current = d.current := by
      unfold Draft.mustacheContent
      dsimp only
      split <;> rfl
    simp only [Synced, state, hbuild, tokenPiece, hkind, howner]
    rcases h with ⟨hreturn, h⟩ | ⟨hreturn, hno, h⟩
    · obtain ⟨hstands, hopen⟩ := mustacheContent_stands h hopen hu here ht hend
      exact ⟨hopen, path, hn, .inl ⟨hreturn, hstands⟩⟩
    · obtain ⟨hstands, hopen⟩ := mustacheContent_stands h hopen hu here ht hend
      exact ⟨hopen, path, hn, .inr ⟨hreturn, hno, hstands⟩⟩
  | mustacheEnd state read =>
    simp only [Synced, state] at h
    obtain ⟨_, path, hn, ⟨hreturn, h⟩ | ⟨hreturn, hno, h⟩⟩ := h
    · obtain ⟨k, path', rfl, _, hk⟩ := hn.exists_cons
      simp only [Synced, Memory.leave, hreturn, tokenPiece, Draft.build, hkind, List.append_nil]
      exact ⟨_, hn, mustacheEnd_stands (by rcases hk with rfl | rfl <;> decide) h ht⟩
    · simp only [Synced, Memory.leave, hreturn, tokenPiece, Draft.build, hkind, List.append_nil]
      exact ⟨path, hn, .inl ⟨hno, mustacheEnd_stands (by decide) h ht⟩⟩

/-! ## All tokens -/

/-- The scanner knows of the last name whether it is that of a directive. -/
theorem inDirective_of_yields (hy : m.Yields .template before u kind error rest m') :
    m'.inDirective = namesDirective m.inDirective kind := by
  cases hy <;> rfl

theorem inDirective_of_turns (hturn : m.Turns u m') : m'.inDirective = m.inDirective := by
  cases hturn <;> rfl

theorem takeToken_current (d : Draft) (t : Token) :
    (d.takeToken t).current = (d.build t).current := by
  unfold Draft.takeToken
  split <;> rfl

/-- The reading of a template goes with the scanner. -/
structure Follows (text : Text) (s : Scanner) (r : Reading) : Prop where
  within : s.Within text
  dialect : s.dialect = .template
  inDirective : r.inDirective = s.memory.inDirective
  synced : Synced text s.memory s.rest s.offset r.pieces r.draft

theorem Follows.scan {s : Scanner} {r : Reading} (h : Follows text s r) :
    Follows text s.scan.2 (r.take s.scan.1) := by
  have hpieces : (r.take s.scan.1).pieces
      = r.pieces ++ tokenPiece r.inDirective (r.draft.build s.scan.1).current s.scan.1 := by
    rw [← takeToken_current]
    rfl
  refine ⟨h.within.scan, s.scan_dialect.trans h.dialect, ?_, ?_⟩
  · by_cases hrest : s.rest = []
    · rw [Scanner.scan_at_end hrest]
      exact h.inDirective
    · obtain ⟨m, kind, error, rest, m', hturns, hyields, hscan⟩ := Scanner.scan_before_end hrest
      rw [h.dialect] at hyields
      -- the turns in front of the token do not name an attribute
      have hm : m.inDirective = s.memory.inDirective :=
        hturns.keeps (P := fun m => m.inDirective = s.memory.inDirective)
          (fun _ _ hm hturn => (inDirective_of_turns hturn).trans hm) rfl
      rw [hscan]
      show namesDirective r.inDirective kind = m'.inDirective
      rw [inDirective_of_yields hyields, hm, h.inDirective]
  · rw [hpieces]
    refine Synced.takeToken ?_
    by_cases hrest : s.rest = []
    · have hscan := Scanner.scan_at_end hrest
      have hoffset : s.scan.2.offset = s.offset := by
        rw [hscan]
        simp [Scanner.take, hrest, Text.before, size]
      rw [hoffset, hscan]
      simp only [Scanner.take, tokenPiece, Draft.build, List.append_nil]
      exact hrest ▸ h.synced
    · have hreads := h.within.reads
      have hparts := s.scan_reads
      obtain ⟨m, kind, error, rest, m', hturns, hyields, hscan⟩ := Scanner.scan_before_end hrest
      rw [h.dialect] at hyields
      obtain ⟨hsynced, hm⟩ := hturns.keeps
        (P := fun m => Synced text m s.rest s.offset r.pieces r.draft ∧
          m.inDirective = s.memory.inDirective)
        (fun _ _ h hturn => ⟨h.1.turns hturn, (inDirective_of_turns hturn).trans h.2⟩)
        ⟨h.synced, rfl⟩
      rw [h.inDirective, ← hm]
      rw [hscan] at hreads hparts ⊢
      have hstep := hsynced.step hrest hyields hreads rfl hparts
      exact hstep

theorem Synced.stands (h : Synced text m rest pos xs d) :
    ∃ path, d.Stands pieces .template text pos path xs := by
  unfold Synced at h
  split at h
  · exact h.imp fun _ h => h.2
  · exact h.imp fun _ h => h.2
  · exact h.imp fun _ h => h.2
  · exact h.imp fun _ h => h.2
  · exact h.imp fun _ h => h.2
  · obtain ⟨_, path, _, h⟩ := h
    exact ⟨_, h⟩
  · obtain ⟨path, _, h⟩ := h
    exact ⟨_, h⟩
  · exact h.imp fun _ h => h.2
  · exact (AttributeOpen.exists_tagPath h).imp fun _ h => h.2
  · exact (AttributeOpen.exists_tagPath h).imp fun _ h => h.2
  · exact (AttributeOpen.exists_tagPath h).imp fun _ h => h.2
  · obtain ⟨_, path, _, ⟨_, h⟩ | ⟨_, _, h⟩⟩ := h
    · exact ⟨_, h⟩
    · exact ⟨_, h⟩
  · exact h.elim

theorem draft_of_reading (ts : List Token) (r : Reading) :
    (ts.foldl Reading.take r).draft = ts.foldl Draft.takeToken r.draft := by
  induction ts generalizing r with
  | nil => rfl
  | cons t ts ih => exact ih (r.take t)

/-- **The tree holds the code of the tokens**, in the same order. -/
theorem pieces_of_tree (text : Text) :
    ∃ pos path, (Parse.draft .template text).Stands pieces .template text pos path
      (Reading.ofText text).pieces := by
  have hstart : Follows text (Scanner.start .template text)
      { draft := Draft.start .template text } :=
    ⟨Scanner.start_within .template text, rfl, rfl, [.root], .root,
      Draft.stands_start pieces .template text⟩
  obtain ⟨s, hfollows⟩ := Scanner.tokensIn_foldl (P := fun s r _ => Follows text s r)
    (f := Reading.take) (g := fun u _ => u) (fun s _ _ h => h.scan) (tokenLimit text)
    (b := ()) hstart
  obtain ⟨path, hstands⟩ := hfollows.synced.stands
  obtain ⟨path, hfinish⟩ := hstands.finish
  refine ⟨s.offset, path, ?_⟩
  rw [draft_of_reading] at hfinish
  exact hfinish

end TemplateArtifact

end HybridMarkup
