/-
The scanner and the parser are in step.

The scanner and the parser know of each other only through the tokens. Each has its own idea of where
in the document it is: the scanner has its context, the parser its open node. What the rules of the
parser take for granted of the open node (`Draft.Expects`) holds because the two ideas never come
apart, whatever the document is like.

Which kinds of nodes are open in which context is known already, for prose and for templates
(`ProseArtifacts.Synced`, `TemplateArtifact.Synced`). Two rules need more than kinds. The name of a
tag is for an element that has just been opened; and the body of a script is opaque because of a name
that the scanner remembers, while the parser reads it off an element. So in a template the context
also says what the nearest element is called (`TemplateArtifact.Named`).

Main statement: `Parse.in_step`. At every token of every document the open node is the one the token
is about, and the strict parser takes the token in as the other one does; so it never refuses a
document.
-/
import HybridMarkup.Proofs.StrictParse

set_option autoImplicit false

namespace HybridMarkup

open Text

/-! ## The nearest element -/

/-- The name of an element. -/
def NodeData.tag? : NodeData → Option Text
  | .element e => some e.tag
  | _ => none

namespace Tree

variable {t t' : Tree} {tag : Text} {i edge : Nat}

/-- Of the nodes from `i` up to the root the first that is an element has the name `tag`. -/
inductive Inside (t : Tree) (tag : Text) : Nat → Prop where
  | here {i : Nat} (name : (t.data i).tag? = some tag) : Inside t tag i
  | above {i p : Nat} (name : (t.data i).tag? = none) (parent : t.parent i = some p)
      (outer : Inside t tag p) : Inside t tag i

/-- Only the names and the parents of the nodes matter. -/
theorem Inside.congr (h : t.Inside tag i) (hname : ∀ j, (t'.data j).tag? = (t.data j).tag?)
    (hparent : ∀ j, t'.parent j = t.parent j) : t'.Inside tag i := by
  induction h with
  | here name => exact .here ((hname _).trans name)
  | above name parent _ ih => exact .above ((hname _).trans name) ((hparent _).trans parent) ih

/-- A new node is above none of the old ones. -/
theorem Inside.sprout {p : Nat} (h : t.Inside tag i) (hshape : t.Shape p) (hi : i < t.size)
    (data : NodeData) (span : Span) : (t.sprout data span p).Inside tag i := by
  have hp := hshape.edge_lt
  have hname {j : Nat} (hj : j < t.size) : (t.sprout data span p).data j = t.data j := by
    rw [data_sprout hp, if_neg (Nat.ne_of_lt hj)]
  induction h with
  | here name => exact .here (hname hi ▸ name)
  | above name parent _ ih =>
    refine .above (hname hi ▸ name) ?_ (ih (Nat.lt_trans (hshape.parent_lt parent) hi))
    rw [parent_sprout hp, if_neg (Nat.ne_of_lt hi), parent]

/-- A node that is no element is inside what its parent is inside. -/
theorem Inside.up {p : Nat} (h : t.Inside tag i) (hname : (t.data i).tag? = none)
    (hp : t.parent i = some p) : t.Inside tag p := by
  cases h with
  | here name => simp [hname] at name
  | above _ parent outer =>
    rw [hp, Option.some.injEq] at parent
    exact parent ▸ outer

end Tree

namespace Draft

variable {text tag : Text} {pos : Nat} {d : Draft} {t : Token}

/-- The open node is an element of the given name, or inside one. -/
def Inside (d : Draft) (tag : Text) : Prop := d.tree.Inside tag d.current

theorem Inside.setSpan (h : d.Inside tag) (i : Nat) (span : Span) :
    ({ d with tree := d.tree.setSpan i span } : Draft).Inside tag :=
  Tree.Inside.congr h (fun _ => congrArg NodeData.tag? (Tree.data_setSpan ..))
    fun _ => Tree.parent_setSpan ..

theorem Inside.extend (h : d.Inside tag) (stop : Nat) : (d.extend stop).Inside tag :=
  h.setSpan _ _

theorem Inside.setCurrent {data : NodeData} (h : d.Inside tag)
    (hname : data.tag? = d.currentData.tag?) : (d.setCurrent data).Inside tag := by
  refine Tree.Inside.congr h (fun j => ?_) fun _ => Tree.parent_setData ..
  rw [show (d.setCurrent data).tree = d.tree.setData d.current data from rfl, Tree.data_setData]
  split
  · next heq => rw [hname, ← heq.1]; rfl
  · rfl

/-- A node that is opened and is no element. -/
theorem Inside.openNode {data : NodeData} (h : d.Inside tag) (hshape : d.tree.Shape d.current)
    (hname : data.tag? = none) (span : Span) : (d.openNode data span).Inside tag := by
  obtain ⟨hdata, hparent⟩ := node_leaf data span hshape.edge_lt
  refine .above ((congrArg NodeData.tag? hdata).trans hname) hparent ?_
  exact Tree.Inside.congr (Tree.Inside.sprout h hshape hshape.edge_lt data span)
    (fun _ => congrArg NodeData.tag? (Tree.data_setSpan ..)) fun _ => Tree.parent_setSpan ..

theorem Inside.ascend (h : d.Inside tag) (hname : d.currentData.tag? = none) :
    d.ascend.Inside tag := by
  unfold Draft.ascend
  split
  · exact h
  · next p hp =>
    have hup : ({ d with current := p } : Draft).Inside tag := Tree.Inside.up h hname hp
    exact hup.setSpan _ _

theorem Inside.close (h : d.Inside tag) (hname : d.currentData.tag? = none) (stop : Nat) :
    (d.close stop).Inside tag := by
  refine Inside.ascend (h.setSpan _ _) ?_
  exact (congrArg NodeData.tag? (Tree.data_setSpan ..)).trans hname

theorem Inside.leaveAttribute (h : d.Inside tag) : d.leaveAttribute.Inside tag := by
  unfold Draft.leaveAttribute
  split
  · next a hdata => exact h.ascend (congrArg NodeData.tag? hdata)
  · next a hdata => exact h.ascend (congrArg NodeData.tag? hdata)
  · exact h

theorem Inside.attributeName {data : NodeData} (h : d.Inside tag)
    (hshape : d.leaveAttribute.tree.Shape d.leaveAttribute.current) (hname : data.tag? = none) :
    (d.attributeName t data).Inside tag := by
  have hopen := h.leaveAttribute.openNode hshape hname t.span
  unfold Draft.attributeName
  dsimp only
  split
  · exact hopen
  · exact hopen

theorem Inside.attributeValue (h : d.Inside tag) (span : Span) :
    (d.attributeValue span).Inside tag := by
  unfold Draft.attributeValue
  dsimp only
  split
  · next a hdata => exact (h.setCurrent (by rw [hdata]; rfl)).extend _
  · next a hdata => exact (h.setCurrent (by rw [hdata]; rfl)).extend _
  · exact h

theorem Inside.mustacheContent (h : d.Inside tag) : (d.mustacheContent t).Inside tag := by
  unfold Draft.mustacheContent
  refine Inside.extend ?_ _
  split
  · next hdata => exact h.setCurrent (by rw [hdata]; rfl)
  · exact h

theorem Inside.mustacheEnd (h : d.Inside tag) : (d.mustacheEnd t).Inside tag := by
  unfold Draft.mustacheEnd
  split
  · next hdata => exact (h.close (congrArg NodeData.tag? hdata) _).attributeValue _
  · exact h

/-- The name of the element that is open. -/
theorem Inside.tag_eq {e : Element} (h : d.Inside tag) (hdata : d.currentData = .element e) :
    e.tag = tag := by
  have hname : (d.tree.data d.current).tag? = some e.tag := congrArg NodeData.tag? hdata
  cases h with
  | here name => exact Option.some.inj (hname.symm.trans name)
  | above name _ _ => simp [hname] at name

theorem inside_of_element {e : Element} (hdata : d.currentData = .element e) : d.Inside e.tag :=
  .here (congrArg NodeData.tag? hdata)

/-- The name of a start tag is the name of the element that it opens. -/
theorem inside_startTag {e : Element} (hcurrent : d.current < d.tree.size)
    (hdata : d.currentData = .element e) : (d.startTag t).Inside t.lexeme := by
  refine inside_of_element (e := { e with tag := t.lexeme }) ?_
  simp only [Draft.startTag, hdata, currentData_extend]
  exact currentData_setCurrent _ hcurrent

end Draft

/-! ## Templates -/

/-- What is void does not depend on the case of the name. -/
theorem isVoid_congr {tag name : Text} (h : equalIgnoringCase tag name = true) :
    isVoid tag = isVoid name := by
  have hmap : tag.map Char.toLower = name.map Char.toLower := by simpa [equalIgnoringCase] using h
  have hsame : equalIgnoringCase tag = equalIgnoringCase name := by
    funext v
    rw [equalIgnoringCase, hmap]
    rfl
  rw [isVoid, hsame]
  rfl

/-- The elements with an opaque body, in whichever case they are written. -/
theorem Memory.bodyState_ne_content {tag : Text} (h : bodyState tag ≠ .content) :
    bodyState tag = .scriptBody ∧ equalIgnoringCase tag "script".toList = true ∨
      bodyState tag = .styleBody ∧ equalIgnoringCase tag "style".toList = true := by
  unfold bodyState RawElement.ofName? at h ⊢
  split
  · next heq =>
    split at heq
    · next hname => exact .inl ⟨rfl, hname⟩
    · split at heq <;> simp at heq
  · next heq =>
    split at heq
    · simp at heq
    · split at heq
      · next hname => exact .inr ⟨rfl, hname⟩
      · simp at heq
  · next heq =>
    rw [heq] at h
    exact absurd rfl h

/-- An element whose body is opaque has a body. -/
theorem isVoid_of_bodyState {tag : Text} (h : Memory.bodyState tag ≠ .content) :
    isVoid tag = false := by
  rcases Memory.bodyState_ne_content h with ⟨_, hname⟩ | ⟨_, hname⟩
  · rw [isVoid_congr hname]
    decide
  · rw [isVoid_congr hname]
    decide

namespace TemplateArtifact

variable {text rest u : Text} {m m' : Memory} {pos pos' : Nat} {xs : List Piece} {d : Draft}
  {t : Token} {before : Option Char} {kind : TokenKind} {error : Option LexError}
  {path : List NodeKind}

/-- What the scanner remembers of names is true of the open node. -/
def Named (m : Memory) (d : Draft) : Prop :=
  match m.state with
  | .startTagName => d.currentData = .element {} ∧ d.current + 1 = d.tree.size
  | .startTag | .attributeNamed | .beforeValue | .value => d.Inside m.lastTag
  | .mustache => m.returnState = .value → d.Inside m.lastTag
  | .scriptBody | .styleBody =>
    ∃ e, d.currentData = .element e ∧ Memory.bodyState e.tag = m.state
  | _ => True

theorem Named.turns (h : Named m d) (hturn : m.Turns u m') : Named m' d := by
  cases hturn with
  | noValue state | noQuote state | valueEnds state _ =>
    simp only [Named, state] at h
    exact h
  | noStartName state =>
    simp only [Named, state] at h
    exact Draft.inside_of_element h.1
  | noEndName state | noBody state => trivial

/-- In a start tag the element is open, or one of its attributes is. -/
theorem TagPath.inStartTag (htag : TagPath path) (h : d.Stands pieces .template text pos path xs) :
    d.InStartTag := by
  obtain ⟨outer, _, rfl | rfl | rfl⟩ := htag
  · exact .inl h.kind_eq
  · obtain ⟨p, hp, hchain⟩ := h.chain.up
    exact .inr ⟨.inl h.kind_eq, p, hp, hchain.kind_eq⟩
  · obtain ⟨p, hp, hchain⟩ := h.chain.up
    exact .inr ⟨.inr h.kind_eq, p, hp, hchain.kind_eq⟩

theorem Nested.current (hn : Nested path) (h : d.Stands pieces .template text pos path xs) :
    d.currentKind = .root ∨ d.currentKind = .element := by
  obtain ⟨k, path', rfl, _, hk⟩ := hn.exists_cons
  rw [h.kind_eq]
  exact hk

theorem AttributeOpen.current (h : AttributeOpen text m rest pos xs d) :
    d.currentKind = .attr ∨ d.currentKind = .directive := by
  obtain ⟨_, _, ⟨_, h⟩ | ⟨_, h, _⟩⟩ := h
  · exact .inl h.kind_eq
  · exact .inr h.kind_eq

/-- **A token of a template finds the node open that it is about.** -/
theorem Synced.expects (h : Synced text m u pos xs d) (hnamed : Named m d)
    (hy : m.Yields .template before u kind error rest m') : d.Expects kind := by
  cases hy with
  | space | tagSpace | valueSpace | nameSpace | commentStart | importStatement | closedExpression
  | openExpression | jsxExpression | proseText | fenceLineEnd | fenceLineSpace | codeBlockStart
  | contentMustache | templateText | namelessStart | strayInStartTag | valueMustache | endTag
  | namelessEnd | strayInEndTag => trivial
  | commentEnd state _ | commentContent state _ =>
    simp only [Synced, state] at h
    obtain ⟨_, path, _, h⟩ := h
    exact h.kind_eq
  | paragraphEnd state _ | codeBlockAttribute state _ | codeBlockEnd state _
  | codeBlockContent state _ _ =>
    simp only [Synced, state] at h
  | endTagOpen state _ _ | startTagOpen state _ _ | endTagClose state _ | endTagBroken state _ =>
    simp only [Synced, state] at h
    obtain ⟨path, hn, h⟩ := h
    exact hn.current h
  | startTag state _ =>
    simp only [Named, state] at hnamed
    exact hnamed
  | selfClose state _ | startTagClose state _ | startTagBroken state _ | attributeName state _ _ _
  | directiveName state _ _ _ =>
    simp only [Synced, state] at h
    obtain ⟨path, htag, h⟩ := h
    exact htag.inStartTag h
  | attributeDelimiter state _ | openingMark state _ _ | unquotedValue state _ _ _ _ _
  | closingMark state _ _ | directiveValue state _ _ _ | quotedValue state _ _ _ =>
    simp only [Synced, state] at h
    exact AttributeOpen.current h
  | mustacheEnd state _ | mustacheContent state _ =>
    simp only [Synced, state] at h
    obtain ⟨_, path, _, ⟨_, h⟩ | ⟨_, _, h⟩⟩ := h
    · exact h.kind_eq
    · exact h.kind_eq
  | rawText e state _ _ =>
    have hbody : ∃ e, d.currentData = .element e ∧ Memory.bodyState e.tag = m.state := by
      cases e <;> simpa only [Named, state] using hnamed
    obtain ⟨e, hdata, hbody⟩ := hbody
    refine ⟨e, hdata, ?_⟩
    have hne : Memory.bodyState e.tag ≠ .content := by
      rw [hbody, state]
      split <;> decide
    exact (Memory.bodyState_ne_content hne).imp And.right And.right

/-- In a start tag the open node is on the right edge, and so is the element. -/
theorem Synced.shape (h : Synced text m u pos xs d) : d.tree.Shape d.current := by
  obtain ⟨path, h⟩ := h.stands
  exact h.shape

/-- Behind its start tag an element with an opaque body is open. -/
theorem named_startTagClose (h : d.Inside m.lastTag) (htag : d.InStartTag)
    (hshape : d.leaveAttribute.tree.Shape d.leaveAttribute.current) :
    Named (m.goto (Memory.bodyState m.lastTag)) (d.startTagClose t) := by
  obtain ⟨e, hdata⟩ := htag.exists_element
  have hname : e.tag = m.lastTag := h.leaveAttribute.tag_eq hdata
  by_cases hbody : Memory.bodyState m.lastTag = .content
  · simp only [Named, Memory.goto, hbody]
  · have hclose : (d.startTagClose t).currentData
        = .element { e with startTagEnd := some t.span.stop } := by
      simp only [Draft.startTagClose, hdata, hname, isVoid_of_bodyState hbody, Bool.false_eq_true,
        if_false, Draft.currentData_extend]
      exact Draft.currentData_setCurrent _ hshape.edge_lt
    have hnamed : ∃ e, (d.startTagClose t).currentData = .element e ∧
        Memory.bodyState e.tag = Memory.bodyState m.lastTag := ⟨_, hclose, by rw [← hname]⟩
    rcases Memory.bodyState_ne_content hbody with ⟨heq, _⟩ | ⟨heq, _⟩
    · simp only [Named, Memory.goto, heq] at hnamed ⊢
      exact hnamed
    · simp only [Named, Memory.goto, heq] at hnamed ⊢
      exact hnamed

/-- **A token of a template leaves it true** what the scanner remembers of names. -/
theorem Named.step (h : Named m d) (hsynced : Synced text m u pos xs d)
    (hy : m.Yields .template before u kind error rest m') (hkind : t.kind = kind)
    (hlexeme : t.lexeme = Text.before u rest) : Named m' (d.build t) := by
  have hshape := hsynced.shape
  cases hy with
  -- contexts of which nothing is remembered
  | commentStart | proseText | paragraphEnd | codeBlockStart | fenceLineEnd | codeBlockEnd
  | endTagOpen | selfClose | startTagBroken | endTag | namelessEnd | endTagClose | endTagBroken
  | rawText => trivial
  | commentContent state _ | fenceLineSpace state _ | codeBlockAttribute state _
  | codeBlockContent state _ _ | templateText state _ _ | strayInEndTag state _ =>
    simp only [Named, state]
  | importStatement _ mdx _ | closedExpression _ mdx _ | openExpression _ mdx _
  | jsxExpression _ mdx _ => simp at mdx
  | commentEnd state _ =>
    simp only [Synced, state] at hsynced
    simp only [Named, Memory.leave, hsynced.1]
  | contentMustache state _ _ =>
    simp only [Named, Memory.enter, state]
    exact fun hreturn => by simp at hreturn
  -- nothing is built of these
  | space _ _ | nameSpace _ _ =>
    simp only [Draft.build, hkind]
    exact h
  | tagSpace state _ =>
    rcases state with state | state <;> simp only [Named, state, Draft.build, hkind] at h ⊢ <;>
      exact h
  | valueSpace state _ _ | strayInStartTag state _ =>
    simp only [Named, state, Draft.build, hkind] at h ⊢
    exact h
  -- the element and its name
  | startTagOpen state _ _ =>
    simp only [Synced, state] at hsynced
    obtain ⟨path, hn, hstands⟩ := hsynced
    simp only [Named, Memory.goto, Draft.build, hkind, Draft.startTagOpen,
      leaveAttribute_of_nested hn hstands]
    exact ⟨Draft.currentData_openNode _ _ hshape.edge_lt, Draft.openNode_last ..⟩
  | startTag state _ =>
    simp only [Named, state, Draft.build, hkind] at h ⊢
    exact hlexeme ▸ Draft.inside_startTag hshape.edge_lt h.1
  | namelessStart state _ =>
    simp only [Named, state, Draft.build, hkind] at h ⊢
    exact Draft.inside_of_element h.1
  | startTagClose state _ =>
    simp only [Synced, state] at hsynced
    simp only [Named, state] at h
    simp only [Draft.build, hkind]
    obtain ⟨path, htag, hstands⟩ := hsynced
    obtain ⟨_, _, hleave⟩ := leaveAttribute_stands htag hstands
    exact named_startTagClose h (htag.inStartTag hstands) hleave.shape
  -- within the start tag
  | attributeName state _ _ _ | directiveName state _ _ _ =>
    simp only [Synced, state] at hsynced
    simp only [Named, state] at h
    simp only [Named, Draft.build, hkind]
    obtain ⟨path, htag, hstands⟩ := hsynced
    obtain ⟨_, _, hleave⟩ := leaveAttribute_stands htag hstands
    exact h.attributeName hleave.shape rfl
  | attributeDelimiter state _ | openingMark state _ _ | closingMark state _ _ =>
    simp only [Named, state] at h
    simp only [Named, Memory.goto, Draft.build, hkind]
    exact h.extend _
  | unquotedValue state _ _ _ _ _ | directiveValue state _ _ _ | quotedValue state _ _ _ =>
    simp only [Named, state] at h
    simp only [Named, state, Draft.build, hkind]
    exact h.attributeValue _
  | valueMustache state _ _ _ =>
    simp only [Named, state] at h
    simp only [Named, Memory.enter, Draft.build, hkind]
    exact fun _ => h.openNode hshape rfl _
  | mustacheContent state _ =>
    simp only [Named, state] at h
    simp only [Named, state, Draft.build, hkind]
    exact fun hreturn => (h hreturn).mustacheContent
  | mustacheEnd state _ =>
    simp only [Named, state] at h
    simp only [Synced, state] at hsynced
    obtain ⟨_, _, _, ⟨hreturn, _⟩ | ⟨hreturn, _, _⟩⟩ := hsynced
    · simp only [Named, Memory.leave, hreturn]
    · simp only [Named, Memory.leave, hreturn, Draft.build, hkind]
      exact (h hreturn).mustacheEnd

theorem Named.takeToken (h : Named m (d.build t)) : Named m (d.takeToken t) := by
  unfold Draft.takeToken
  split
  · exact h
  · exact h

/-- In front of the end a token of a template is read in a context that the draft fits. -/
theorem Follows.exists_step {s : Scanner} {r : Reading} (h : Follows text s r)
    (hnamed : Named s.memory r.draft) (hrest : s.rest ≠ []) :
    ∃ m kind error rest m', Synced text m s.rest s.offset r.pieces r.draft ∧ Named m r.draft ∧
      m.Yields .template s.before s.rest kind error rest m' ∧
      s.scan = s.take kind error rest m' := by
  obtain ⟨m, kind, error, rest, m', hturns, hyields, hscan⟩ := Scanner.scan_before_end hrest
  rw [h.dialect] at hyields
  obtain ⟨hsynced, hnamed⟩ := hturns.keeps
    (P := fun m => Synced text m s.rest s.offset r.pieces r.draft ∧ Named m r.draft)
    (fun _ _ h hturn => ⟨h.1.turns hturn, h.2.turns hturn⟩) ⟨h.synced, hnamed⟩
  exact ⟨m, kind, error, rest, m', hsynced, hnamed, hyields, hscan⟩

end TemplateArtifact

/-! ## Prose -/

namespace ProseArtifacts

variable {dialect : Dialect} {text u rest : Text} {m m' : Memory} {pos : Nat} {deal : Deal}
  {d : Draft} {before : Option Char} {kind : TokenKind} {error : Option LexError}

/-- **A token of prose finds the node open that it is about.** -/
theorem Synced.expects (prose : dialect ≠ .template) (h : Synced dialect text m u pos deal d)
    (hy : m.Yields dialect before u kind error rest m') : d.Expects kind := by
  cases hy with
  | space | tagSpace | valueSpace | nameSpace | commentStart | importStatement | closedExpression
  | openExpression | jsxExpression | proseText | fenceLineEnd | fenceLineSpace | codeBlockStart
  | contentMustache | templateText | namelessStart | strayInStartTag | valueMustache | endTag
  | namelessEnd | strayInEndTag => trivial
  | commentEnd state _ | commentContent state _ =>
    simp only [Synced, state] at h
    rcases h with ⟨_, h⟩ | ⟨_, h⟩
    · exact h.kind_eq
    · exact h.kind_eq
  | paragraphEnd state _ =>
    simp only [Synced, state] at h
    exact h.kind_eq
  | codeBlockAttribute state _ | codeBlockEnd state _ | codeBlockContent state _ _ =>
    simp only [Synced, state] at h
    exact h.1.kind_eq
  | endTagOpen _ template _ | startTagOpen _ template _ => exact absurd template prose
  | rawText e state _ _ => cases e <;> simp only [Synced, state] at h
  | endTagClose state _ | endTagBroken state _ | startTag state _ | selfClose state _
  | startTagClose state _ | startTagBroken state _ | attributeName state _ _ _
  | directiveName state _ _ _ | attributeDelimiter state _ | openingMark state _ _
  | unquotedValue state _ _ _ _ _ | closingMark state _ _ | directiveValue state _ _ _
  | quotedValue state _ _ _ | mustacheEnd state _ | mustacheContent state _ =>
    simp only [Synced, state] at h

end ProseArtifacts

/-! ## All tokens -/

/-- The inside of an expression is a span: behind the first brace there is at least the second, or
the expression is faulty. -/
theorem Scanner.Within.interior_ordered {text : Text} {s : Scanner} (h : s.Within text)
    (hkind : s.scan.1.kind = .blockExpression) :
    s.scan.1.interior.start ≤ s.scan.1.interior.stop := by
  have hreads := h.reads
  have hrest : s.rest ≠ [] := fun hnil => by
    rw [(s.scan_kind_eq_eos_iff).2 hnil] at hkind
    simp at hkind
  obtain ⟨m, kind, error, rest, m', _, hyields, hscan⟩ := Scanner.scan_before_end hrest
  obtain rfl : kind = .blockExpression := by
    rw [hscan] at hkind
    exact hkind
  have hlexeme {part : Text} (hpart : s.rest = part ++ rest) : s.scan.1.lexeme = part := by
    rw [hscan]
    show Text.before s.rest rest = part
    rw [hpart, Text.before_append]
  cases hyields with
  | closedExpression state mdx read =>
    rename_i inner
    have hclosed : s.scan.1.lexeme = '{' :: inner ++ ['}'] := hlexeme (by rw [read]; simp)
    exact (hreads.interior_closed (by rw [hscan]; rfl) hclosed).1.cutsInner.ordered
  | openExpression state mdx read =>
    rename_i inner
    have hopen : s.scan.1.lexeme = '{' :: inner := hlexeme (by rw [read, List.append_nil])
    exact (hreads.interior_open (by rw [hscan]; rfl) hopen).1.cutsInner.ordered

namespace Draft

variable {text : Text} {d : Draft} {s : Scanner}

/-- The open node fits the context of the scanner. -/
def Attuned (text : Text) (s : Scanner) (d : Draft) : Prop :=
  (s.dialect ≠ .template ∧ ∃ deal,
      ProseArtifacts.Synced s.dialect text s.memory s.rest s.offset deal d) ∨
    ∃ r : TemplateArtifact.Reading, r.draft = d ∧ TemplateArtifact.Follows text s r ∧
      TemplateArtifact.Named s.memory d

/-- **The token that is read next finds the node open that it is about.** -/
theorem Attuned.expects (h : d.Attuned text s) : d.Expects s.scan.1.kind := by
  by_cases hrest : s.rest = []
  · rw [(s.scan_kind_eq_eos_iff).2 hrest]
    trivial
  · rcases h with ⟨prose, deal, hsynced⟩ | ⟨r, rfl, hfollows, hnamed⟩
    · obtain ⟨m, kind, error, rest, m', hturns, hyields, hscan⟩ := Scanner.scan_before_end hrest
      obtain rfl : m = s.memory := hturns.eq_of_rank hsynced.rank_eq_zero
      rw [hscan]
      exact hsynced.expects prose hyields
    · obtain ⟨m, kind, error, rest, m', hsynced, hnamed, hyields, hscan⟩ :=
        hfollows.exists_step hnamed hrest
      rw [hscan]
      exact hsynced.expects hnamed hyields

theorem Attuned.scan (h : d.Attuned text s) (hw : s.Within text) :
    (d.takeToken s.scan.1).Attuned text s.scan.2 := by
  rcases h with ⟨prose, deal, hsynced⟩ | ⟨r, rfl, hfollows, hnamed⟩
  · refine .inl ⟨s.scan_dialect.symm ▸ prose, deal.take s.scan.1, ?_⟩
    rw [s.scan_dialect]
    exact hsynced.scan prose hw rfl
  · refine .inr ⟨r.take s.scan.1, rfl, hfollows.scan, ?_⟩
    by_cases hrest : s.rest = []
    · rw [Scanner.scan_at_end hrest]
      exact hnamed
    · obtain ⟨m, kind, error, rest, m', hsynced, hnamed, hyields, hscan⟩ :=
        hfollows.exists_step hnamed hrest
      have hstep := hnamed.step (t := s.scan.1) hsynced hyields (by rw [hscan]; rfl)
        (by rw [hscan]; rfl)
      rw [hscan] at hstep ⊢
      exact hstep.takeToken

theorem attuned_start (dialect : Dialect) (text : Text) :
    (Draft.start dialect text).Attuned text (Scanner.start dialect text) := by
  by_cases hdialect : dialect = .template
  · subst hdialect
    exact .inr ⟨{ draft := Draft.start .template text }, rfl,
      ⟨Scanner.start_within .template text, rfl, rfl, [.root], .root,
        stands_start TemplateArtifact.pieces .template text⟩, trivial⟩
  · exact .inl ⟨hdialect, {}, stands_start ProseArtifacts.pieces dialect text⟩

/-- Nothing is forgiven at the token that is read next. -/
theorem Sits.takeToken? (h : d.Sits text s) (ha : d.Attuned text s) :
    d.takeToken? s.scan.1 = .ok (d.takeToken s.scan.1) :=
  takeToken?_eq (build?_eq h.aligned h.laidAt.laid h.within.reads ha.expects
    h.within.interior_ordered h.before_endTag)

/-- What holds in front of a token holds in front of every later one. -/
theorem Sits.after (n : Nat) : ∀ {s : Scanner} {d : Draft}, d.Sits text s → d.Attuned text s →
    ((s.tokens n).foldl Draft.takeToken d).Sits text (s.after n) ∧
      ((s.tokens n).foldl Draft.takeToken d).Attuned text (s.after n) := by
  induction n with
  | zero => exact fun h ha => ⟨h, ha⟩
  | succ n ih => exact fun h ha => ih h.scan (ha.scan h.within)

/-- The strict parser takes in a run of tokens as the other one does. -/
theorem Sits.foldlM (fuel : Nat) : ∀ {s : Scanner} {d : Draft}, d.Sits text s → d.Attuned text s →
    (s.tokensIn fuel).foldlM Draft.takeToken? d
      = .ok ((s.tokensIn fuel).foldl Draft.takeToken d) := by
  induction fuel with
  | zero => exact fun _ _ => rfl
  | succ fuel ih =>
    intro s d h ha
    unfold Scanner.tokensIn
    dsimp only
    split
    · rw [List.foldlM_cons, h.takeToken? ha]
      rfl
    · rw [List.foldlM_cons, h.takeToken? ha]
      exact ih h.scan (ha.scan h.within)

end Draft

/-- **The scanner and the parser stay in step.** At each of the tokens that are read from a document,
however many are asked for, the node is open that the token is about, and the strict parser takes
the token in as the other one does. So it takes in the whole document: no token is dropped, none
reaches rules that it does not belong to, and no span is put together the wrong way round. Nor is
one when the finished tree is linted, whatever the configuration. -/
theorem Parse.in_step (dialect : Dialect) (text : Text) :
    (∀ n : Nat,
      let s := (Scanner.start dialect text).after n
      let d := ((Scanner.start dialect text).tokens n).foldl Draft.takeToken
        (Draft.start dialect text)
      d.Expects s.scan.1.kind ∧ d.takeToken? s.scan.1 = .ok (d.takeToken s.scan.1)) ∧
    Parse.draft? dialect text = .ok (Parse.draft dialect text) ∧
    ∀ c : LintConfig, c.lint? (Parse.draft dialect text).tree
      = some (c.lint (Parse.draft dialect text).tree) := by
  have hsits := Draft.sits_start dialect text
  have hattuned := Draft.attuned_start dialect text
  refine ⟨?_, ?_, Parse.lint?_draft dialect text⟩
  · intro n
    obtain ⟨hs, ha⟩ := hsits.after n hattuned
    exact ⟨ha.expects, hs.takeToken? ha⟩
  · obtain ⟨s, hs⟩ := Scanner.tokensIn_foldl (P := fun s d _ => d.Sits text s)
      (f := Draft.takeToken) (g := fun u _ => u) (fun _ _ _ h => h.scan) (tokenLimit text)
      (b := ()) hsits
    have hlaid := hs.laidAt.laid
    unfold Parse.draft? Parse.draft tokenize
    rw [hsits.foldlM (tokenLimit text) hattuned]
    exact Draft.finish?_eq hs.aligned hlaid.pos_le hlaid.text_eq

end HybridMarkup
