/-
Nothing is accepted in silence.

What is wrong with a template is found in two places. The scanner puts a fault on a token, and the
draft reports what it has to close although nothing in the text does. This file shows that the two
together overlook next to nothing: a template of which nothing is reported is well bracketed, and
all its elements are complete.

The work is done by one invariant, which says for each context of the scanner which brackets are
open there (`TemplateArtifact.Awaits`). As long as nothing is reported every token fits them, and
leaves those open that the next context awaits; and where the text ends without a report, the draft
is back at the root, so that hardly anything can be open.

The exceptions are end tags. One without a name, `</>`, has no fault, because a fault is put on what
stands in the place of the name, and there is nothing; and one that the end of the text cuts short
has no part in the tree, so that it is nothing to be closed. A start tag is different in both
respects: its element is in the tree. Where no end tag is in pieces, silence means that the template
is in order (`Parse.silent_balanced`).
-/
import HybridMarkup.Proofs.Brackets
import HybridMarkup.Proofs.CopiedOnce
import HybridMarkup.Proofs.Lockstep
import HybridMarkup.Proofs.OpenElements
import HybridMarkup.Proofs.SameFront

set_option autoImplicit false

namespace HybridMarkup

open Text

/-! ## Behind the bracket of a tag -/

namespace Memory

variable {m : Memory} {t : Text}

/-- Where a name is missing there is a fault, or a bracket. -/
theorem scanNameless_cases (m : Memory) (error : LexError) (ht : t ≠ []) :
    (∃ rest, m.scanNameless error t = .faulty .unknown error rest m) ∨
      m.scanNameless error t = .turn m ∧ ∃ u, t = '>' :: u ∨ t = '<' :: u := by
  obtain ⟨c, u, rfl⟩ := List.exists_cons_of_ne_nil ht
  by_cases hbracket : c = '>' ∨ c = '<'
  · have hstays : seekAny ['>', '<'] (c :: u) = c :: u := by
      rcases hbracket with rfl | rfl
      · rfl
      · rfl
    refine .inr ⟨?_, u, by simpa using hbracket⟩
    simp [scanNameless, hstays]
  · have hmoves : seekAny ['>', '<'] (c :: u) = seekAny ['>', '<'] u := by
      simp only [not_or] at hbracket
      simp [seekAny, hbracket]
    have hlt : (seekAny ['>', '<'] (c :: u)).length < (c :: u).length := by
      rw [hmoves]
      exact Nat.lt_succ_of_le (seekAny_suffix _ u).length_le
    exact .inl ⟨seekAny ['>', '<'] (c :: u), by rw [scanNameless]; exact if_pos hlt⟩

/-- What is done behind the bracket of a tag. Its name is taken, what stands in the place of the
name is reported, or there is a bracket and the tag goes on without a name. -/
inductive NameRead (name : TokenKind) (nameless : Memory) (t : Text) : Move → Prop
  | named {rest : Text} {m : Memory} :
      m.state = nameless.state → NameRead name nameless t (.plain name rest m)
  | fault {kind : TokenKind} {error : LexError} {rest : Text} {m : Memory} :
      NameRead name nameless t (.faulty kind error rest m)
  | nameless {u : Text} : t = '>' :: u ∨ t = '<' :: u → NameRead name nameless t (.turn nameless)

theorem nameRead_scanNameless {name : TokenKind} (m : Memory) (error : LexError) (ht : t ≠ []) :
    NameRead name m t (m.scanNameless error t) := by
  rcases m.scanNameless_cases error ht with ⟨rest, hfault⟩ | ⟨hturn, u, hu⟩
  · rw [hfault]
    exact .fault
  · rw [hturn]
    exact .nameless hu

theorem nameRead_scanStartTagName (m : Memory) (ht : t ≠ []) :
    NameRead .startTag { m with lastTag := [], state := .startTag } t (m.scanStartTagName t) := by
  unfold scanStartTagName
  split
  · exact .named rfl
  · split
    · exact .fault
    · exact nameRead_scanNameless _ _ ht

theorem nameRead_scanEndTagName (m : Memory) (ht : t ≠ []) :
    NameRead .endTag (m.goto .endTag) t (m.scanEndTagName t) := by
  unfold scanEndTagName
  split
  · exact .named rfl
  · split
    · exact .fault
    · exact nameRead_scanNameless _ _ ht

theorem Turns.behind_name {m' : Memory} (h : m.Turns t m') :
    m'.state ≠ .startTagName ∧ m'.state ≠ .endTagName := by
  cases h <;> simp [goto]

end Memory

namespace Scanner

variable {s : Scanner}

theorem error_of_faulty {kind : TokenKind} {error : LexError} {rest : Text} {m : Memory}
    (h : s.memory.step s.dialect s.before s.rest = .faulty kind error rest m) :
    s.scan.1.error = some error := by
  rw [scan_eq_take h]
  rfl

/-- **A tag begins with a name**, or there is nothing between its brackets. -/
theorem scan_tagName {name close : TokenKind} {nameless : Memory} {state : ScannerState}
    (hread : nameless.NameRead name s.rest (s.memory.step s.dialect s.before s.rest))
    (hclose : ∀ u, ∃ m, nameless.step s.dialect s.before ('>' :: u) = .plain close u m ∧
      m.state = state)
    (hopen : ∀ u, ∃ kind error rest m,
      nameless.step s.dialect s.before ('<' :: u) = .faulty kind error rest m)
    (hfine : s.scan.1.error = none) :
    ∃ kind rest m, s.scan = s.take kind none rest m ∧
      (kind = name ∧ m.state = nameless.state ∨ kind = close ∧ m.state = state) := by
  generalize hmove : s.memory.step s.dialect s.before s.rest = move at hread
  cases hread with
  | named hm => exact ⟨_, _, _, scan_eq_take hmove, .inl ⟨rfl, hm⟩⟩
  | fault =>
    rw [error_of_faulty hmove] at hfine
    simp at hfine
  | nameless hu =>
    rw [← scan_of_turn hmove] at hfine ⊢
    rcases hu with hu | hu
    · obtain ⟨m, hstep, hm⟩ := hclose _
      exact ⟨_, _, m, scan_eq_take (by rw [hu]; exact hstep), .inr ⟨rfl, hm⟩⟩
    · obtain ⟨kind, error, rest, m, hstep⟩ := hopen _
      rw [error_of_faulty (by rw [hu]; exact hstep)] at hfine
      simp at hfine

theorem scan_startTagName (state : s.memory.state = .startTagName) (hrest : s.rest ≠ [])
    (hfine : s.scan.1.error = none) :
    ∃ kind rest m, s.scan = s.take kind none rest m ∧
      (kind = .startTag ∧ m.state = .startTag ∨ kind = .startTagClose ∧ m.state = .content) := by
  have hread := s.memory.nameRead_scanStartTagName hrest
  have hstep : s.memory.step s.dialect s.before s.rest = s.memory.scanStartTagName s.rest := by
    obtain ⟨c, u, hcu⟩ := List.exists_cons_of_ne_nil hrest
    simp only [hcu, Memory.step, Memory.stepWithin, state]
  rw [← hstep] at hread
  exact scan_tagName hread (fun u => ⟨_, rfl, rfl⟩) (fun u => ⟨_, _, _, _, rfl⟩) hfine

theorem scan_endTagName (state : s.memory.state = .endTagName) (hrest : s.rest ≠ [])
    (hfine : s.scan.1.error = none) :
    ∃ kind rest m, s.scan = s.take kind none rest m ∧
      (kind = .endTag ∧ m.state = .endTag ∨ kind = .endTagClose ∧ m.state = .content) := by
  have hread := s.memory.nameRead_scanEndTagName hrest
  have hstep : s.memory.step s.dialect s.before s.rest = s.memory.scanEndTagName s.rest := by
    obtain ⟨c, u, hcu⟩ := List.exists_cons_of_ne_nil hrest
    simp only [hcu, Memory.step, Memory.stepWithin, state]
  rw [← hstep] at hread
  exact scan_tagName hread (fun u => ⟨_, rfl, rfl⟩) (fun u => ⟨_, _, _, _, rfl⟩) hfine

/-- The name of an end tag has a character at least. -/
theorem endTag_named (fuel : Nat) (s : Scanner) :
    ∀ t ∈ s.tokensIn fuel, t.kind = .endTag → t.lexeme ≠ [] := by
  have hnow (s : Scanner) (hkind : s.scan.1.kind = .endTag) : s.scan.1.lexeme ≠ [] := by
    intro hlexeme
    rcases lexeme_eq_nil_cases hlexeme with hnil | hmiss | hstalls
    · rw [(s.scan_kind_eq_eos_iff).2 hnil] at hkind
      simp at hkind
    · rw [hkind] at hmiss
      simp [Memory.MissesBracket] at hmiss
    · have hvalue := ((stalls_iff s).2 hstalls).1
      rw [hkind] at hvalue
      simp at hvalue
  induction fuel generalizing s with
  | zero => exact fun t ht => absurd ht List.not_mem_nil
  | succ fuel ih =>
    intro t ht
    unfold tokensIn at ht
    dsimp only at ht
    split at ht
    · rw [List.mem_singleton.1 ht]
      exact hnow s
    · rcases List.mem_cons.1 ht with rfl | ht
      · exact hnow s
      · exact ih s.scan.2 t ht

end Scanner

namespace TemplateArtifact

/-! ## What is open in a context -/

/-- Between tags the elements are open, and their start tags have ended. -/
def AmongTags (es : List (Nat × Element)) (opened : List Bracket) : Prop :=
  opened = (es.map fun x => x.2.tag).map .element ∧ ∀ x ∈ es, x.2.startTagEnd ≠ none

/-- Within a start tag it is open, and what is around its element. -/
def AmidTag (es : List (Nat × Element)) (opened : List Bracket) : Prop :=
  ∃ x outer around, es = x :: outer ∧ AmongTags outer around ∧
    opened = .startTag x.2.tag :: around

/-- Within a value its quote is open, if it has one. -/
def AmidValue (mark : Option Char) (es : List (Nat × Element)) (opened : List Bracket) : Prop :=
  ∃ tag, AmidTag es tag ∧ opened = if mark = none then tag else .quote :: tag

/-- The last tokens are the bracket and the name of an end tag, and space. -/
structure EndTagRead (d : Draft) (ts : List Token) (o n : Token) : Prop where
  read : ∃ before spaces, ts = before ++ o :: n :: spaces ∧ ∀ x ∈ spaces, x.kind = .whitespace
  bracket : o.kind = .endTagOpen
  name : n.kind = .endTag
  start : d.endTagStart = o.span.start
  named : d.endTagName = some n.lexeme

/-- The brackets in `opened` are those that are open in the context, where the elements in `es`
are. -/
def Awaits (m : Memory) (d : Draft) (ts : List Token) (es : List (Nat × Element))
    (opened : List Bracket) : Prop :=
  match m.state with
  | .content | .scriptBody | .styleBody => AmongTags es opened
  | .comment => ∃ around, AmongTags es around ∧ opened = .comment :: around
  | .startTagName =>
    ∃ x outer around, es = x :: outer ∧ AmongTags outer around ∧ opened = .tagName :: around
  | .startTag | .attributeNamed | .beforeValue => AmidTag es opened
  | .value => AmidValue m.valueMark es opened
  | .mustache =>
    ∃ around, opened = .mustache :: around ∧
      (m.returnState = .content ∧ AmongTags es around ∨
        m.returnState = .value ∧ m.valueMark ≠ none ∧ AmidValue m.valueMark es around)
  | .endTagName =>
    (∃ around, AmongTags es around ∧ opened = .endTagName :: around) ∧ d.endTagName = none ∧
      ∃ before o, ts = before ++ [o] ∧ o.kind = .endTagOpen ∧ d.endTagStart = o.span.start
  | .endTag =>
    ∃ o n, EndTagRead d ts o n ∧ ∃ around, AmongTags es around ∧ opened = .endTag n.lexeme :: around
  | _ => False

variable {text rest u : Text} {m m' : Memory} {pos pos' : Nat} {xs : List Piece} {d : Draft}
  {t : Token} {before : Option Char} {kind : TokenKind} {ts : List Token}
  {es : List (Nat × Element)} {opened pushed : List Bracket} {lenient : Bool}

theorem AmongTags.step? (h : AmongTags es opened)
    (hcontent : Bracket.content? t.kind = some pushed) :
    Bracket.step? lenient t opened = some (pushed ++ opened) := by
  rw [h.1]
  exact Bracket.step?_elements _ hcontent

theorem AmongTags.cons {i : Nat} {e : Element} (h : AmongTags es opened)
    (hbegan : e.startTagEnd ≠ none) : AmongTags ((i, e) :: es) (.element e.tag :: opened) := by
  refine ⟨by rw [h.1]; rfl, fun x hx => ?_⟩
  rcases List.mem_cons.1 hx with rfl | hx
  · exact hbegan
  · exact h.2 x hx

/-- A change of context opens nothing and closes nothing. -/
theorem Awaits.turns (h : Awaits m d ts es opened) (hturn : m.Turns u m')
    (hname : m.state ≠ .startTagName ∧ m.state ≠ .endTagName) : Awaits m' d ts es opened := by
  cases hturn with
  | noValue state =>
    simp only [Awaits, state] at h
    exact h
  | noQuote state =>
    simp only [Awaits, state] at h
    exact ⟨opened, h, rfl⟩
  | valueEnds state mark =>
    simp only [Awaits, state, AmidValue, mark, if_true] at h
    obtain ⟨tag, h, rfl⟩ := h
    exact h
  | noStartName state => exact absurd state hname.1
  | noEndName state => exact absurd state hname.2
  | noBody state =>
    rcases state with state | state
    · simp only [Awaits, state] at h
      exact h
    · simp only [Awaits, state] at h
      exact h

theorem AmidTag.step? (h : AmidTag es opened)
    (hkind : t.kind = .whitespace ∨ t.kind = .attributeName ∨ t.kind = .directiveName ∨
      t.kind = .attributeDelimiter ∨ t.kind = .attributeValue) :
    Bracket.step? lenient t opened = some opened := by
  obtain ⟨x, outer, around, _, _, rfl⟩ := h
  refine Bracket.step?_within [.startTag x.2.tag] ?_ around
  rcases hkind with hkind | hkind | hkind | hkind | hkind <;> simp [Bracket.within?, hkind]

/-- The value of an attribute, with a quote around it or not. -/
theorem AmidValue.step? {mark : Option Char} (h : AmidValue mark es opened)
    (hkind : t.kind = .attributeValue) : Bracket.step? lenient t opened = some opened := by
  obtain ⟨tag, htag, rfl⟩ := h
  split
  · exact htag.step? (.inr (.inr (.inr (.inr hkind))))
  · exact Bracket.step?_within [.quote] (by simp [Bracket.within?, hkind]) tag

/-- The end of a start tag that is an end tag as well. -/
theorem AmidTag.selfClose {path : List NodeKind} (h : AmidTag es opened) (htag : TagPath path)
    (hstands : d.Stands pieces .template text pos path xs) (hacc : d.Accounts ts es)
    (hkind : t.kind = .startTagSelfClose) :
    ∃ es' opened', Bracket.step? lenient t opened = some opened' ∧ AmongTags es' opened' ∧
      (d.startTagSelfClose t).Accounts ts es' := by
  obtain ⟨x, outer, around, rfl, hamong, rfl⟩ := h
  obtain ⟨_, _, hleave⟩ := leaveAttribute_stands htag hstands
  obtain ⟨e, hdata⟩ := (htag.inStartTag hstands).exists_element
  obtain ⟨outer', heq, hclosed⟩ :=
    (hacc.passes (Draft.passes_leaveAttribute hstands.shape.root)).startTagSelfClose (t := t)
      hdata hleave.shape
  obtain ⟨_, rfl⟩ := List.cons.inj heq
  have hends : Bracket.within? lenient t (.startTag x.2.tag) = some [] := by
    simp [Bracket.within?, hkind]
  exact ⟨outer, around, Bracket.step?_within [] hends around, hamong, hclosed⟩

/-- The end of a start tag. Behind it the element is open, unless it is void. -/
theorem AmidTag.close {path : List NodeKind} (h : AmidTag es opened) (htag : TagPath path)
    (hstands : d.Stands pieces .template text pos path xs) (hacc : d.Accounts ts es)
    (hkind : t.kind = .startTagClose) :
    ∃ es' opened', Bracket.step? lenient t opened = some opened' ∧ AmongTags es' opened' ∧
      (d.startTagClose t).Accounts ts es' := by
  obtain ⟨x, outer, around, rfl, hamong, rfl⟩ := h
  obtain ⟨_, _, hleave⟩ := leaveAttribute_stands htag hstands
  obtain ⟨e, hdata⟩ := (htag.inStartTag hstands).exists_element
  obtain ⟨outer', heq, hclosed⟩ :=
    (hacc.passes (Draft.passes_leaveAttribute hstands.shape.root)).startTagClose (t := t)
      hdata hleave.shape
  obtain ⟨rfl, rfl⟩ := List.cons.inj heq
  have hends : Bracket.within? lenient t (.startTag e.tag)
      = some (if isVoid e.tag = true then [] else [.element e.tag]) := by
    simp [Bracket.within?, hkind]
  refine ⟨_, _, Bracket.step?_within _ hends around, ?_, hclosed⟩
  by_cases hvoid : isVoid e.tag = true
  · rw [if_pos hvoid, if_pos hvoid]
    exact hamong
  · rw [if_neg hvoid, if_neg hvoid]
    exact hamong.cons (by simp)

theorem Nested.root_or_element {path : List NodeKind} (hn : Nested path)
    (h : d.Stands pieces .template text pos path xs) :
    d.current = Tree.root ∨ ∃ e, d.currentData = .element e := by
  cases hn with
  | root => exact .inl h.chain.eq_root
  | element _ =>
    have hkind : d.currentData.kind = .element := h.kind_eq
    cases hdata : d.currentData with
    | element e => exact .inr ⟨e, rfl⟩
    | _ => simp [hdata, NodeData.kind] at hkind

/-- The end of an end tag. It is not reported, so it closes the innermost element. -/
theorem EndTagRead.close {o n : Token} {path : List NodeKind} (h : EndTagRead d ts o n)
    (hamong : AmongTags es opened) (hn : Nested path)
    (hstands : d.Stands pieces .template text pos path xs) (hacc : d.Accounts ts es)
    (hsilent : (d.endTagClose t.span.stop).Silent) (hkind : t.kind = .endTagClose) :
    ∃ es' opened', Bracket.step? lenient t (.endTag n.lexeme :: opened) = some opened' ∧
      AmongTags es' opened' ∧ (d.endTagClose t.span.stop).Accounts ts es' := by
  obtain ⟨before, spaces, hts, _⟩ := h.read
  obtain ⟨i, e, outer, rfl, hsame, hclosed⟩ := hacc.endTagClose hsilent h.named hstands.shape
    (hn.root_or_element hstands) hamong.2 ⟨before, spaces, by simp [hts]⟩ h.bracket h.name h.start
  obtain ⟨rfl, hbegan⟩ := hamong
  refine ⟨outer, (outer.map fun x => x.2.tag).map .element, ?_,
    ⟨rfl, fun x hx => hbegan x (List.mem_cons_of_mem _ hx)⟩, hclosed⟩
  simp [Bracket.step?, hkind, hsame]

theorem EndTagRead.space {o n : Token} (h : EndTagRead d ts o n) (hkind : t.kind = .whitespace) :
    EndTagRead d (ts ++ [t]) o n := by
  obtain ⟨before, spaces, rfl, hspaces⟩ := h.read
  refine ⟨⟨before, spaces ++ [t], by simp, fun x hx => ?_⟩, h.bracket, h.name, h.start, h.named⟩
  rcases List.mem_append.1 hx with hx | hx
  · exact hspaces x hx
  · rw [List.mem_singleton.1 hx, hkind]

/-- **A token that is not reported fits** what is open, and leaves open what the next context
awaits. What stands behind the bracket of a tag is left out here. -/
theorem Awaits.step (h : Awaits m d ts es opened) (hsynced : Synced text m u pos xs d)
    (hacc : d.Accounts ts es) (hsilent : (d.build t).Silent)
    (hy : m.Yields .template before u kind none rest m') (hkind : t.kind = kind)
    (hname : m.state ≠ .startTagName ∧ m.state ≠ .endTagName) :
    ∃ es' opened', Bracket.step? lenient t opened = some opened' ∧
      Awaits m' (d.build t) (ts ++ [t]) es' opened' ∧ (d.build t).Accounts (ts ++ [t]) es' := by
  have hshape := hsynced.shape
  have hmore := hacc.mono t
  have hspares (hspares : Draft.sparesElements kind = true) :
      (d.build t).Accounts (ts ++ [t]) es := by
    obtain ⟨_, hstands⟩ := hsynced.stands
    exact hmore.passes (Draft.passes_build hshape hstands.dialect_eq (hkind ▸ hspares))
  cases hy with
  -- space
  | space state _ =>
    refine ⟨es, opened, ?_, ?_, hspares rfl⟩
    · rcases state with state | state | state <;> simp only [Awaits, state] at h
      · exact h.step? (by rw [hkind]; rfl)
      · exact h.step? (.inl hkind)
      · obtain ⟨o, n, _, around, _, rfl⟩ := h
        exact Bracket.step?_within [.endTag n.lexeme] (by simp [Bracket.within?, hkind]) around
    · have hbuild : d.build t = d := by simp only [Draft.build, hkind]
      rw [hbuild]
      rcases state with state | state | state <;> simp only [Awaits, state] at h ⊢
      · exact h
      · exact h
      · obtain ⟨o, n, hread, haround⟩ := h
        exact ⟨o, n, hread.space hkind, haround⟩
  | tagSpace state _ =>
    have htag : AmidTag es opened := by
      rcases state with state | state <;> simpa only [Awaits, state] using h
    refine ⟨es, opened, htag.step? (.inl hkind), ?_, hspares rfl⟩
    rcases state with state | state <;> simpa only [Awaits, state] using htag
  | valueSpace state mark _ =>
    simp only [Awaits, state, AmidValue, mark, if_true] at h
    obtain ⟨_, h, rfl⟩ := h
    exact ⟨es, _, h.step? (.inl hkind), h, hspares rfl⟩
  -- comments
  | commentStart state _ =>
    rcases state with state | state <;> simp only [Awaits, state] at h
    exact ⟨es, .comment :: opened, h.step? (by rw [hkind]; rfl), ⟨opened, h, rfl⟩, hspares rfl⟩
  | commentEnd state _ =>
    simp only [Awaits, state] at h
    simp only [Synced, state] at hsynced
    obtain ⟨around, h, rfl⟩ := h
    have hends : Bracket.within? lenient t .comment = some [] := by simp [Bracket.within?, hkind]
    refine ⟨es, around, Bracket.step?_within [] hends around, ?_, hspares rfl⟩
    simp only [Awaits, Memory.leave, hsynced.1]
    exact h
  | commentContent state _ =>
    simp only [Awaits, state] at h ⊢
    obtain ⟨around, h, rfl⟩ := h
    have hstays : Bracket.within? lenient t .comment = some [.comment] := by
      simp [Bracket.within?, hkind]
    exact ⟨es, _, Bracket.step?_within _ hstays around, ⟨around, h, rfl⟩, hspares rfl⟩
  -- prose
  | codeBlockStart state prose _ => exact absurd rfl prose
  | importStatement state mdx _ => cases mdx
  | closedExpression state mdx _ => cases mdx
  | jsxExpression state mdx _ => cases mdx
  | proseText state _ =>
    rcases state with ⟨_, prose⟩ | state
    · exact absurd rfl prose
    · simp only [Awaits, state] at h
  | paragraphEnd state _ | fenceLineEnd state _ | fenceLineSpace state _
  | codeBlockAttribute state _ | codeBlockEnd state _ | codeBlockContent state _ _ =>
    simp only [Awaits, state] at h
  -- between tags
  | templateText state _ _ =>
    simp only [Awaits, state] at h ⊢
    exact ⟨es, opened, h.step? (by rw [hkind]; rfl), h, hspares rfl⟩
  | contentMustache state _ _ =>
    simp only [Awaits, state] at h
    refine ⟨es, .mustache :: opened, h.step? (by rw [hkind]; rfl), ?_, hspares rfl⟩
    simp only [Awaits, Memory.enter, state]
    exact ⟨opened, rfl, .inl ⟨trivial, h⟩⟩
  | rawText e state _ _ =>
    have h : AmongTags es opened := by
      cases e <;> simpa only [Awaits, state] using h
    exact ⟨es, opened, h.step? (by rw [hkind]; rfl), h, hspares rfl⟩
  -- tags
  | startTagOpen state _ _ =>
    simp only [Awaits, state] at h
    simp only [Synced, state] at hsynced
    obtain ⟨path, hn, hstands⟩ := hsynced
    refine ⟨(d.tree.size, {}) :: es, .tagName :: opened, h.step? (by rw [hkind]; rfl),
      ⟨_, es, opened, rfl, h, rfl⟩, ?_⟩
    simp only [Draft.build, hkind, Draft.startTagOpen, leaveAttribute_of_nested hn hstands]
    exact hmore.openElement hshape
  | endTagOpen state _ _ =>
    simp only [Awaits, state] at h
    refine ⟨es, .endTagName :: opened, h.step? (by rw [hkind]; rfl), ⟨⟨opened, h, rfl⟩, ?_⟩,
      hspares rfl⟩
    simp only [Draft.build, hkind]
    exact ⟨rfl, ts, t, rfl, hkind, rfl⟩
  | startTag state _ => exact absurd state hname.1
  | endTag state _ => exact absurd state hname.2
  | selfClose state _ =>
    simp only [Awaits, state] at h
    simp only [Synced, state] at hsynced
    obtain ⟨path, htag, hstands⟩ := hsynced
    obtain ⟨es', opened', hstep, hamong, hclosed⟩ := h.selfClose htag hstands hacc hkind
    refine ⟨es', opened', hstep, hamong, ?_⟩
    simp only [Draft.build, hkind]
    exact hclosed.mono t
  | startTagClose state _ =>
    simp only [Awaits, state] at h
    simp only [Synced, state] at hsynced
    obtain ⟨path, htag, hstands⟩ := hsynced
    obtain ⟨es', opened', hstep, hamong, hclosed⟩ := h.close htag hstands hacc hkind
    refine ⟨es', opened', hstep, ?_, ?_⟩
    · rcases bodyState_cases m.lastTag with hbody | hbody | hbody <;>
        simp only [Awaits, Memory.goto, hbody] <;> exact hamong
    · simp only [Draft.build, hkind]
      exact hclosed.mono t
  | endTagClose state _ =>
    simp only [Awaits, state] at h
    simp only [Synced, state] at hsynced
    obtain ⟨o, n, hread, around, hamong, rfl⟩ := h
    obtain ⟨path, hn, hstands⟩ := hsynced
    have hbuild : d.build t = d.endTagClose t.span.stop := by simp only [Draft.build, hkind]
    rw [hbuild] at hsilent ⊢
    obtain ⟨es', opened', hstep, hamong, hclosed⟩ :=
      hread.close hamong hn hstands hacc hsilent hkind
    exact ⟨es', opened', hstep, hamong, hclosed.mono t⟩
  -- attributes
  | attributeName state _ _ _ | directiveName state _ _ _ =>
    simp only [Awaits, state] at h
    exact ⟨es, opened, h.step? (by simp [hkind]), h, hspares rfl⟩
  | attributeDelimiter state _ =>
    simp only [Awaits, state] at h
    exact ⟨es, opened, h.step? (by simp [hkind]), h, hspares rfl⟩
  | openingMark state _ _ =>
    simp only [Awaits, state] at h
    refine ⟨es, .quote :: opened, ?_, ⟨opened, h, by simp⟩, hspares rfl⟩
    obtain ⟨x, outer, around, _, _, rfl⟩ := h
    exact Bracket.step?_within [.quote, .startTag x.2.tag] (by simp [Bracket.within?, hkind]) around
  | closingMark state quoted _ =>
    simp only [Awaits, state, AmidValue, quoted] at h
    obtain ⟨tag, h, rfl⟩ := h
    have hends : Bracket.within? lenient t .quote = some [] := by simp [Bracket.within?, hkind]
    exact ⟨es, tag, Bracket.step?_within [] hends tag, h, hspares rfl⟩
  | unquotedValue state mark _ _ _ _ | directiveValue state quoted _ _
  | quotedValue state quoted _ _ =>
    simp only [Awaits, state] at h ⊢
    exact ⟨es, opened, h.step? hkind, h, hspares rfl⟩
  -- mustaches
  | valueMustache state quoted _ _ =>
    simp only [Awaits, state] at h
    refine ⟨es, .mustache :: opened, ?_, ?_, hspares rfl⟩
    · obtain ⟨tag, _, rfl⟩ := h
      rw [quoted]
      exact Bracket.step?_within [.mustache, .quote] (by simp [Bracket.within?, hkind]) tag
    · simp only [Awaits, Memory.enter, state]
      exact ⟨opened, rfl, .inr ⟨trivial, by simp [quoted], h⟩⟩
  | mustacheContent state _ =>
    simp only [Awaits, state] at h ⊢
    obtain ⟨around, rfl, h⟩ := h
    have hstays : Bracket.within? lenient t .mustache = some [.mustache] := by
      simp [Bracket.within?, hkind]
    exact ⟨es, _, Bracket.step?_within _ hstays around, ⟨around, rfl, h⟩, hspares rfl⟩
  | mustacheEnd state _ =>
    simp only [Awaits, state] at h
    obtain ⟨around, rfl, h⟩ := h
    have hends : Bracket.within? lenient t .mustache = some [] := by simp [Bracket.within?, hkind]
    refine ⟨es, around, Bracket.step?_within [] hends around, ?_, hspares rfl⟩
    rcases h with ⟨hreturn, h⟩ | ⟨hreturn, _, h⟩ <;>
      simp only [Awaits, Memory.leave, hreturn] <;> exact h

/-! ## A token -/

/-- The token fits what is open, or it leaves an element open that has no name. -/
def Fits (lenient : Bool) (t : Token) (opened opened' : List Bracket) : Prop :=
  Bracket.step? lenient t opened = some opened' ∨
    ∃ tags : List Text, [] ∈ tags ∧ opened' = tags.map .element

/-- An element that has no name is never closed, so that in the end every token has to fit. -/
theorem Fits.balanced {opened' : List Bracket} (h : Fits lenient t opened opened')
    (hkind : t.kind ≠ .eos) (hts : ∀ t ∈ ts, t.kind = .endTag → t.lexeme ≠ [])
    (hrest : Bracket.balanced lenient opened' ts = true) :
    Bracket.balanced lenient opened (t :: ts) = true := by
  rcases h with hstep | ⟨tags, hmem, rfl⟩
  · exact Bracket.balanced_cons hkind hstep hrest
  · have hopen : Bracket.element [] ∈ tags.map .element := List.mem_map.2 ⟨[], hmem, rfl⟩
    rw [Bracket.balanced_nameless hts hopen (by simp)] at hrest
    simp at hrest

/-- **A start tag** has a name, or its element has none. -/
theorem Awaits.startTagName (h : Awaits m d ts es opened) (state : m.state = .startTagName)
    (hnamed : Named m d) (hshape : d.tree.Shape d.current) (hacc : d.Accounts ts es)
    (hnext : t.kind = .startTag ∧ m'.state = .startTag ∨
      t.kind = .startTagClose ∧ m'.state = .content) :
    ∃ es' opened', Fits lenient t opened opened' ∧
      Awaits m' (d.build t) (ts ++ [t]) es' opened' ∧ (d.build t).Accounts (ts ++ [t]) es' := by
  simp only [Awaits, state] at h
  simp only [Named, state] at hnamed
  obtain ⟨x, outer, around, rfl, h, rfl⟩ := h
  have hmore := hacc.mono t
  have hdata : d.currentData = .element {} := hnamed.1
  obtain ⟨outer', heq⟩ := Draft.exists_outer hmore.opened hdata
  obtain ⟨rfl, rfl⟩ := List.cons.inj heq
  rcases hnext with ⟨hkind, hm⟩ | ⟨hkind, hm⟩
  · have hname : Bracket.within? lenient t .tagName = some [.startTag t.lexeme] := by
      simp [Bracket.within?, hkind]
    refine ⟨(d.current, { tag := t.lexeme }) :: outer, _,
      .inl (Bracket.step?_within _ hname around), ?_, ?_⟩
    · simp only [Awaits, hm]
      exact ⟨_, outer, around, rfl, h, rfl⟩
    · simp only [Draft.build, hkind]
      exact hmore.startTag hdata hshape
  · have hleave : d.leaveAttribute = d := by simp only [Draft.leaveAttribute, hdata]
    obtain ⟨outer', heq, hclosed⟩ := Draft.Accounts.startTagClose (t := t)
      (hleave.symm ▸ hmore) (hleave.symm ▸ hdata) (hleave.symm ▸ hshape)
    obtain ⟨_, rfl⟩ := List.cons.inj heq
    rw [if_neg (by decide), hleave] at hclosed
    refine ⟨(d.current, { startTagEnd := some t.span.stop }) :: outer, .element [] :: around,
      .inr ⟨[] :: outer.map fun x => x.2.tag, List.mem_cons_self, by rw [h.1]; rfl⟩, ?_, ?_⟩
    · simp only [Awaits, hm]
      exact h.cons (by simp)
    · simp only [Draft.build, hkind]
      exact hclosed

/-- **An end tag** has a name, or it closes nothing. -/
theorem Awaits.endTagName (h : Awaits m d ts es opened) (state : m.state = .endTagName)
    (hacc : d.Accounts ts es)
    (hwhole : lenient = true ∨ ∀ before o, ts = before ++ [o] → o.kind = .endTagOpen →
      t.kind ≠ .endTagClose)
    (hnext : t.kind = .endTag ∧ m'.state = .endTag ∨ t.kind = .endTagClose ∧ m'.state = .content) :
    ∃ es' opened', Fits lenient t opened opened' ∧
      Awaits m' (d.build t) (ts ++ [t]) es' opened' ∧ (d.build t).Accounts (ts ++ [t]) es' := by
  simp only [Awaits, state] at h
  obtain ⟨⟨around, h, rfl⟩, hnone, before, o, rfl, hopen, hstart⟩ := h
  have hmore := hacc.mono t
  rcases hnext with ⟨hkind, hm⟩ | ⟨hkind, hm⟩
  · have hname : Bracket.within? lenient t .endTagName = some [.endTag t.lexeme] := by
      simp [Bracket.within?, hkind]
    have hbuild : d.build t = { d with endTagName := some t.lexeme } := by
      simp only [Draft.build, hkind, Draft.endTagNamed]
    rw [hbuild]
    refine ⟨es, _, .inl (Bracket.step?_within _ hname around), ?_, ⟨hmore.opened, hmore.settled⟩⟩
    simp only [Awaits, hm]
    have hread : EndTagRead { d with endTagName := some t.lexeme } (before ++ [o] ++ [t]) o t :=
      ⟨⟨before, [], by simp, fun x hx => absurd hx List.not_mem_nil⟩, hopen, hkind, hstart, rfl⟩
    exact ⟨o, t, hread, around, h, rfl⟩
  · have hlenient : lenient = true :=
      hwhole.resolve_right fun hwhole => hwhole before o rfl hopen hkind
    have hclosed : Bracket.within? lenient t .endTagName = some [] := by
      simp [Bracket.within?, hkind, hlenient]
    have hbuild : d.build t = d := by simp only [Draft.build, hkind, Draft.endTagClose, hnone]
    rw [hbuild]
    refine ⟨es, around, .inl (Bracket.step?_within _ hclosed around), ?_, hmore⟩
    simp only [Awaits, hm]
    exact h

/-! ## The end of the text -/

/-- Where a text ends without a report, no element is open, and nothing else that is part of the
tree. -/
theorem Synced.at_root (h : Synced text m u pos xs d) (hsilent : d.finish.Silent) :
    d.current = Tree.root ∧
      (m.state = .content ∨ m.state = .endTagName ∨ m.state = .endTag ∨ m.state = .scriptBody ∨
        m.state = .styleBody) := by
  have hnothing {path : List NodeKind} {k : NodeKind}
      (h : d.Stands pieces .template text pos path xs) (hk : k ∈ path) : k.isStructural = false :=
    h.silent_finish hsilent k hk
  have hroot (h : ∃ path, Nested path ∧ d.Stands pieces .template text pos path xs) :
      d.current = Tree.root := by
    obtain ⟨path, hn, h⟩ := h
    cases hn with
    | root => exact h.chain.eq_root
    | element _ => exact absurd (hnothing h List.mem_cons_self) (by decide)
  have htag (h : ∃ path, TagPath path ∧ d.Stands pieces .template text pos path xs) : False := by
    obtain ⟨path, ⟨outer, _, hpath⟩, h⟩ := h
    have hmem : .element ∈ path := by rcases hpath with rfl | rfl | rfl <;> simp
    exact absurd (hnothing h hmem) (by decide)
  unfold Synced at h
  split at h
  · next state => exact ⟨hroot h, .inl state⟩
  · next state => exact ⟨hroot h, .inr (.inl state)⟩
  · next state => exact ⟨hroot h, .inr (.inr (.inl state))⟩
  · next state => exact ⟨hroot h, .inr (.inr (.inr (.inl state)))⟩
  · next state => exact ⟨hroot h, .inr (.inr (.inr (.inr state)))⟩
  · obtain ⟨_, path, _, h⟩ := h
    exact absurd (hnothing h List.mem_cons_self) (by decide)
  · obtain ⟨path, _, h⟩ := h
    exact absurd (hnothing h List.mem_cons_self) (by decide)
  · exact (htag h).elim
  · exact (htag (AttributeOpen.exists_tagPath h)).elim
  · exact (htag (AttributeOpen.exists_tagPath h)).elim
  · exact (htag (AttributeOpen.exists_tagPath h)).elim
  · obtain ⟨_, path, _, ⟨_, h⟩ | ⟨_, _, h⟩⟩ := h
    · exact absurd (hnothing h List.mem_cons_self) (by decide)
    · exact absurd (hnothing h List.mem_cons_self) (by decide)
  · exact h.elim

/-- What may be open there is an end tag. -/
theorem Awaits.mayEnd (h : Awaits m d ts [] opened)
    (hstate : m.state = .content ∨ m.state = .endTagName ∨ m.state = .endTag ∨
      m.state = .scriptBody ∨ m.state = .styleBody)
    (hwhole : lenient = true ∨ Token.endTagsWhole (ts ++ [t]) = true) (hkind : t.kind = .eos) :
    Bracket.mayEnd lenient opened = true := by
  -- behind the bracket of an end tag there is no other one
  have hcut {o : Token} {before spaces : List Token} (hopen : o.kind = .endTagOpen)
      (hread : ts = before ++ o :: spaces) (hspaces : ∀ x ∈ spaces, x.kind ≠ .endTagClose) :
      lenient = true := by
    refine hwhole.resolve_right fun hwhole => ?_
    rw [hread, List.append_assoc, List.cons_append] at hwhole
    obtain ⟨_, c, hc, hclose⟩ := Token.endTagsWhole_split hwhole hopen
    rcases List.mem_append.1 hc with hc | hc
    · exact hspaces c hc hclose
    · rw [List.mem_singleton.1 hc, hkind] at hclose
      simp at hclose
  rcases hstate with state | state | state | state | state <;> simp only [Awaits, state] at h
  · rw [h.1]
    rfl
  · obtain ⟨⟨around, ⟨rfl, _⟩, rfl⟩, _, before, o, hread, hopen, _⟩ := h
    exact hcut hopen hread fun x hx => absurd hx List.not_mem_nil
  · obtain ⟨o, n, hread, around, ⟨rfl, _⟩, rfl⟩ := h
    obtain ⟨before, spaces, hts, hspaces⟩ := hread.read
    refine hcut hread.bracket hts fun x hx => ?_
    rcases List.mem_cons.1 hx with rfl | hx
    · rw [hread.name]
      decide
    · rw [hspaces x hx]
      decide
  · rw [h.1]
    rfl
  · rw [h.1]
    rfl

/-! ## All tokens -/

/-- Everything that is known where a template is read without a report: the scanner and the draft
are in step, the elements are accounted for, and the brackets are those that the context awaits. -/
structure Watched (text : Text) (s : Scanner) (d : Draft) (ts : List Token)
    (es : List (Nat × Element)) (opened : List Bracket) : Prop where
  within : s.Within text
  template : s.dialect = .template
  attuned : d.Attuned text s
  awaits : Awaits s.memory d ts es opened
  accounts : d.Accounts ts es

variable {s : Scanner}

theorem Watched.exists_synced (h : Watched text s d ts es opened) :
    Named s.memory d ∧ ∃ xs, Synced text s.memory s.rest s.offset xs d := by
  rcases h.attuned with ⟨prose, _⟩ | ⟨r, rfl, hfollows, hnamed⟩
  · exact absurd h.template prose
  · exact ⟨hnamed, _, hfollows.synced⟩

/-- **One token.** -/
theorem Watched.scan (h : Watched text s d ts es opened) (hrest : s.rest ≠ [])
    (hsilent : (d.takeToken s.scan.1).Silent)
    (hwhole : lenient = true ∨ ∀ before o, ts = before ++ [o] → o.kind = .endTagOpen →
      s.scan.1.kind ≠ .endTagClose) :
    ∃ es' opened', Fits lenient s.scan.1 opened opened' ∧
      Watched text s.scan.2 (d.takeToken s.scan.1) (ts ++ [s.scan.1]) es' opened' := by
  obtain ⟨hfine, htake, _⟩ := hsilent.of_takeToken
  obtain ⟨hnamed, xs, hsynced⟩ := h.exists_synced
  -- what is left to show is about the token only, and not about the scanner
  suffices hstep : ∃ es' opened', Fits lenient s.scan.1 opened opened' ∧
      Awaits s.scan.2.memory (d.build s.scan.1) (ts ++ [s.scan.1]) es' opened' ∧
      (d.build s.scan.1).Accounts (ts ++ [s.scan.1]) es' by
    obtain ⟨es', opened', hfits, hawaits, haccounts⟩ := hstep
    refine ⟨es', opened', hfits, h.within.scan, s.scan_dialect.trans h.template,
      h.attuned.scan h.within, ?_, ?_⟩
    · rw [htake]
      exact hawaits
    · rw [htake]
      exact haccounts
  rw [htake] at hsilent
  by_cases hstart : s.memory.state = .startTagName
  · obtain ⟨kind, rest, m, hscan, hnext⟩ := Scanner.scan_startTagName hstart hrest hfine
    rw [hscan]
    exact h.awaits.startTagName hstart hnamed hsynced.shape h.accounts hnext
  · by_cases hend : s.memory.state = .endTagName
    · obtain ⟨kind, rest, m, hscan, hnext⟩ := Scanner.scan_endTagName hend hrest hfine
      rw [hscan] at hwhole ⊢
      exact h.awaits.endTagName hend h.accounts hwhole hnext
    · obtain ⟨m, kind, error, rest, m', hturns, hyields, hscan⟩ := Scanner.scan_before_end hrest
      rw [h.template] at hyields
      rw [hscan] at hfine hsilent ⊢
      obtain rfl : error = none := hfine
      obtain ⟨hsynced, hawaits, hname⟩ := hturns.keeps
        (P := fun m => Synced text m s.rest s.offset xs d ∧ Awaits m d ts es opened ∧
          m.state ≠ .startTagName ∧ m.state ≠ .endTagName)
        (fun _ _ h hturn => ⟨h.1.turns hturn, h.2.1.turns hturn h.2.2, hturn.behind_name⟩)
        ⟨hsynced, h.awaits, hstart, hend⟩
      obtain ⟨es', opened', hstep, hnext⟩ :=
        hawaits.step hsynced h.accounts hsilent hyields rfl hname
      exact ⟨es', opened', .inl hstep, hnext⟩

/-- **All tokens.** -/
theorem Watched.run (fuel : Nat) : ∀ {s : Scanner} {d : Draft} {ts : List Token}
    {es : List (Nat × Element)} {opened : List Bracket}, Watched text s d ts es opened →
    (∃ n, n < fuel ∧ (s.after n).scan.1.kind = .eos) →
    ((s.tokensIn fuel).foldl Draft.takeToken d).finish.Silent →
    (lenient = true ∨ Token.endTagsWhole (ts ++ s.tokensIn fuel) = true) →
    Bracket.balanced lenient opened (s.tokensIn fuel) = true ∧
      ∀ i e, ((s.tokensIn fuel).foldl Draft.takeToken d).finish.tree.data i = .element e →
        e.Complete (ts ++ s.tokensIn fuel) := by
  induction fuel with
  | zero => exact fun _ hend => absurd hend (by simp)
  | succ fuel ih =>
    intro s d ts es opened h hend hsilent hwhole
    by_cases heos : s.scan.1.kind = .eos
    · have htokens : s.tokensIn (fuel + 1) = [s.scan.1] := by
        simp only [Scanner.tokensIn, heos, if_true]
      have hlast : d.takeToken s.scan.1 = d := by
        rw [Scanner.scan_at_end ((s.scan_kind_eq_eos_iff).1 heos)]
        rfl
      rw [htokens, List.foldl_cons, List.foldl_nil, hlast] at hsilent ⊢
      rw [htokens] at hwhole
      obtain ⟨_, xs, hsynced⟩ := h.exists_synced
      obtain ⟨hroot, hstate⟩ := hsynced.at_root hsilent
      obtain rfl : es = [] := by
        have hopened := h.accounts.opened
        rw [hroot] at hopened
        exact hopened.eq_nil hsynced.shape.root
      rw [Draft.finish_of_root hroot]
      constructor
      · simp only [Bracket.balanced, heos, if_true, List.isEmpty_nil, Bool.true_and]
        exact h.awaits.mayEnd hstate hwhole heos
      · intro i e hdata
        have hsettled := (h.accounts.mono s.scan.1).settled i e (NodeData.element?_eq_some.2 hdata)
        exact hsettled.resolve_left List.not_mem_nil
    · have htokens : s.tokensIn (fuel + 1) = s.scan.1 :: s.scan.2.tokensIn fuel := by
        simp only [Scanner.tokensIn, heos, if_false]
      have hrest : s.rest ≠ [] := fun hnil => heos ((s.scan_kind_eq_eos_iff).2 hnil)
      rw [htokens, List.foldl_cons] at hsilent ⊢
      rw [htokens] at hwhole
      have hnow : (d.takeToken s.scan.1).Silent :=
        Draft.Silent.of_foldl _ (Draft.Silent.of_finishIn _ hsilent)
      have hnamed : lenient = true ∨ ∀ before o, ts = before ++ [o] → o.kind = .endTagOpen →
          s.scan.1.kind ≠ .endTagClose := by
        refine hwhole.imp_right fun hwhole before o hts hopen => ?_
        rw [hts, List.append_assoc, List.singleton_append] at hwhole
        simpa using (Token.endTagsWhole_split hwhole hopen).1
      obtain ⟨es', opened', hfits, hnext⟩ := h.scan hrest hnow hnamed
      obtain ⟨n, hn, hneos⟩ := hend
      obtain ⟨k, rfl⟩ : ∃ k, n = k + 1 := by
        cases n with
        | zero => exact absurd hneos heos
        | succ k => exact ⟨k, rfl⟩
      have happend : ts ++ s.scan.1 :: s.scan.2.tokensIn fuel
          = ts ++ [s.scan.1] ++ s.scan.2.tokensIn fuel := by simp
      rw [happend] at hwhole ⊢
      obtain ⟨hbalanced, hcomplete⟩ := ih hnext ⟨k, Nat.lt_of_succ_lt_succ hn, hneos⟩ hsilent hwhole
      exact ⟨hfits.balanced heos (Scanner.endTag_named _ _) hbalanced, hcomplete⟩

theorem watched_start (text : Text) :
    Watched text (Scanner.start .template text) (Draft.start .template text) [] [] [] := by
  refine ⟨Scanner.start_within .template text, rfl, Draft.attuned_start .template text,
    ⟨rfl, fun x hx => absurd hx List.not_mem_nil⟩, .root rfl, fun i e hdata => ?_⟩
  cases i with
  | zero => simp [Draft.start, Tree.start, Tree.data, Tree.node, NodeData.element?] at hdata
  | succ i => simp [Draft.start, Tree.start, Tree.data, Tree.node, NodeData.element?] at hdata

end TemplateArtifact

/-- **Nothing is accepted in silence.** If nothing is reported of a template the end of which is
reached, then its tokens are well bracketed but for end tags in pieces, and without a reservation if
there are none. Every element of the tree is void, closes itself, or is closed by an end tag of its
name. -/
theorem Parse.silent_balanced (text : Text) (hend : Scanner.ReachesEnd .template text)
    (hsilent : (Parse.draft .template text).diagnostics.entries = []) :
    let tokens := tokenize .template text
    Bracket.balanced true [] tokens = true ∧
    (Token.endTagsWhole tokens = true → Bracket.balanced false [] tokens = true) ∧
    ∀ i e, (Parse.draft .template text).tree.data i = .element e → e.Complete tokens := by
  intro tokens
  have hsilent : (Parse.draft .template text).Silent := List.reverse_eq_nil_iff.1 hsilent
  obtain ⟨n, hn, heos⟩ := Scanner.eos_reached .template text hend.not_stalls
  have hend : ∃ n, n < tokenLimit text ∧
      ((Scanner.start .template text).after n).scan.1.kind = .eos :=
    ⟨n, Nat.lt_succ_of_le hn, heos⟩
  have hstart := TemplateArtifact.watched_start text
  obtain ⟨hlenient, hcomplete⟩ := hstart.run _ hend hsilent (.inl rfl)
  exact ⟨hlenient, fun hwhole => (hstart.run _ hend hsilent (.inr hwhole)).1, hcomplete⟩

/-- All that can be opened is opened in this template, and closed again. -/
theorem Parse.silent_balanced_nested :
    let text := "<p a='\x7b\x7bb\x7d\x7d' :c=\"d\"><!--e--><BR>\x7b\x7bf\x7d\x7d<i/></P >".toList
    Scanner.ReachesEnd .template text ∧ (Parse.draft .template text).diagnostics.entries = [] ∧
      Bracket.balanced false [] (tokenize .template text) = true := by
  intro text
  have hend : Scanner.ReachesEnd .template text := ⟨33, by decide +kernel⟩
  have hsilent : (Parse.draft .template text).diagnostics.entries = [] := by decide +kernel
  have hwhole : Token.endTagsWhole (tokenize .template text) = true := by decide +kernel
  exact ⟨hend, hsilent, (Parse.silent_balanced text hend hsilent).2.1 hwhole⟩

/-- Nothing is reported of the template, although it is not well bracketed. -/
def Parse.Overlooks (text : Text) : Prop :=
  Scanner.ReachesEnd .template text ∧ (Parse.draft .template text).diagnostics.entries = [] ∧
    Bracket.balanced false [] (tokenize .template text) = false

/-- **An end tag in pieces is overlooked**, if it has no name as well as if it has no end. -/
theorem Parse.end_tags_overlooked :
    Parse.Overlooks "</>".toList ∧ Parse.Overlooks "</a".toList := by
  constructor
  · exact ⟨⟨2, by decide +kernel⟩, by decide +kernel, by decide +kernel⟩
  · exact ⟨⟨2, by decide +kernel⟩, by decide +kernel, by decide +kernel⟩

end HybridMarkup
