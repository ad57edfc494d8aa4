/-
The bodies of script and style elements.

The body of such an element is opaque: it is one piece of text, and the element ends with it. Two
parts of the program have to agree on where that is. The scanner reads the body up to a place where
something stands that begins like the end tag; what is the name there is read afterwards, by a rule
for names, and the draft closes the element that has this name. The two agree if the name ends where
the scanner stopped comparing. If it goes on, as in `</scripty>`, the draft finds no element of the
name, and the script stays open although the scanner is through with its body
(`Parse.raw_body_continues`).

Behind the start tag of such an element the scanner goes through four contexts, and nothing but the
body and the end tag is read in them (`RawElement.Stage`). Before that there are only attributes, and
behind it the element is closed, so that nothing changes it any more.

Main statement: `Parse.raw_body`.
-/
import HybridMarkup.Proofs.CharacterSteps
import HybridMarkup.Proofs.SameFront
import HybridMarkup.Proofs.StartTags
import HybridMarkup.Proofs.Tiling

set_option autoImplicit false

namespace HybridMarkup

open Text

/-! ## The name that the scanner looks for -/

namespace Text

/-- A letter without its case comes from itself, or from its capital. -/
theorem of_toLower (c : Char) :
    c = c.toLower ∨ c = Char.ofNat (c.toLower.toNat - 32) ∧ 97 ≤ c.toLower.toNat := by
  unfold Char.toLower
  split
  · next h =>
    have hlow : 65 ≤ c.val.toNat := UInt32.le_iff_toNat_le.1 h.1
    have hhigh : c.val.toNat ≤ 90 := UInt32.le_iff_toNat_le.1 h.2
    have hnat : (c.val + ('a'.val - 'A'.val)).toNat = c.toNat + 32 := by
      rw [UInt32.toNat_add, show ('a'.val - 'A'.val).toNat = 32 from rfl,
        Nat.mod_eq_of_lt (by omega)]
      rfl
    refine .inr ⟨?_, ?_⟩
    · show c = Char.ofNat ((c.val + ('a'.val - 'A'.val)).toNat - 32)
      rw [hnat, Nat.add_sub_cancel, Char.ofNat_toNat]
    · show 97 ≤ (c.val + ('a'.val - 'A'.val)).toNat
      rw [hnat]
      exact Nat.add_le_add_right hlow 32
  · exact .inl rfl

/-- What is no letter has no case. -/
theorem eq_of_toLower {c l : Char} (h : c.toLower = l) (hl : l.toNat < 97) : c = l := by
  rcases of_toLower c with hc | ⟨_, hle⟩
  · exact hc.trans h
  · rw [h] at hle
    omega

theorem exists_part_of_startsWithIgnoringCase {beginning t : Text}
    (h : startsWithIgnoringCase beginning t = true) :
    ∃ part rest, t = part ++ rest ∧ part.map Char.toLower = beginning.map Char.toLower := by
  induction beginning generalizing t with
  | nil => exact ⟨[], t, rfl, rfl⟩
  | cons b beginning ih =>
    cases t with
    | nil => simp [startsWithIgnoringCase] at h
    | cons c t =>
      simp only [startsWithIgnoringCase, Bool.and_eq_true, beq_iff_eq] at h
      obtain ⟨part, rest, rfl, hpart⟩ := ih h.2
      exact ⟨c :: part, rest, rfl, by simp [h.1, hpart]⟩

end Text

namespace RawElement

variable {e : RawElement} {u : Text}

/-- Whether the name that stands where the body ends is longer than that of the element. -/
def nameGoesOn (e : RawElement) (u : Text) : Bool :=
  (u.drop e.closing.length).head?.any continuesName

theorem beginsName_of_toLower {c : Char} (h : c.toLower ∈ e.name) : beginsName c = true := by
  have hletters :
      e.name.all (fun l => beginsName l && beginsName (Char.ofNat (l.toNat - 32))) = true := by
    cases e <;> decide
  obtain ⟨hsmall, hcapital⟩ := Bool.and_eq_true_iff.1 (List.all_eq_true.1 hletters _ h)
  rcases of_toLower c with hc | ⟨hc, _⟩
  · rw [hc]
    exact hsmall
  · rw [hc]
    exact hcapital

/-- **Where the scanner ends a body there is an end tag** of the name of the element, unless the name
goes on. -/
theorem exists_endTag (h : e.atClosing u = true) (hname : e.nameGoesOn u = false) :
    ∃ name v, u = '<' :: '/' :: (name ++ v) ∧ equalIgnoringCase name e.name = true ∧
      passElementName? (name ++ v) = some v := by
  obtain ⟨part, v, rfl, hpart⟩ := exists_part_of_startsWithIgnoringCase h
  have hlength : e.closing.length = part.length := by
    rw [← List.length_map (f := Char.toLower), ← hpart, List.length_map]
  have hlower : e.name.map Char.toLower = e.name := by cases e <;> decide
  -- the two characters in front of the name are no letters
  obtain ⟨c₁, c₂, name, rfl⟩ : ∃ c₁ c₂ name, part = c₁ :: c₂ :: name := by
    match part, hlength with
    | [], hlength => simp [closing] at hlength
    | [_], hlength => cases e <;> simp [closing, RawElement.name] at hlength
    | c₁ :: c₂ :: name, _ => exact ⟨c₁, c₂, name, rfl⟩
  simp only [closing, List.map_cons, List.cons.injEq] at hpart
  obtain ⟨hc₁, hc₂, hpart⟩ := hpart
  obtain rfl : c₁ = '<' := eq_of_toLower hc₁ (by decide)
  obtain rfl : c₂ = '/' := eq_of_toLower hc₂ (by decide)
  have hbegins (c : Char) (hc : c ∈ name) : beginsName c = true := by
    refine e.beginsName_of_toLower ?_
    rw [← hlower, ← hpart]
    exact List.mem_map_of_mem hc
  have hends : v.dropWhile continuesName = v := by
    rw [nameGoesOn, hlength, List.drop_left] at hname
    cases v with
    | nil => rfl
    | cons c v =>
      simp only [List.head?_cons, Option.any_some] at hname
      exact List.dropWhile_cons_of_neg (by simp [hname])
  refine ⟨name, v, rfl, by simp [equalIgnoringCase, hpart], ?_⟩
  cases name with
  | nil => cases e <;> simp [RawElement.name] at hpart
  | cons c name =>
    have hrest (c : Char) (hc : c ∈ name) : continuesName c = true := by
      rw [continuesName, hbegins c (List.mem_cons_of_mem _ hc)]
      rfl
    rw [List.cons_append, passElementName?, if_pos (hbegins c List.mem_cons_self),
      List.dropWhile_append_of_pos hrest, hends]

end RawElement

/-! ## The body in the tree -/

/-- Behind its attributes the element has at most one child, a piece of text that begins at `p`. -/
def Tree.HasRawBody (t : Tree) (i p : Nat) : Prop :=
  ∃ head body, t.children i = head ++ body ∧
    (∀ j ∈ head, t.kind j = .attr ∨ t.kind j = .directive) ∧
    (body = [] ∨ ∃ j s, body = [j] ∧ t.data j = .rawText s ∧ (t.span j).start = p)

/-- The element has its end where an end tag of its name begins. -/
def Element.EndsAtTag (tokens : List Token) (e : Element) : Prop :=
  ∃ o n, [o, n] <:+: tokens ∧ o.kind = .endTagOpen ∧ n.kind = .endTag ∧
    e.endTagStart = some o.span.start ∧ equalIgnoringCase e.tag n.lexeme = true

theorem Element.EndsAtTag.mono {tokens more : List Token} {e : Element} (h : e.EndsAtTag tokens)
    (hmore : tokens <:+: more) : e.EndsAtTag more := by
  obtain ⟨o, n, hpair, hend⟩ := h
  exact ⟨o, n, hpair.trans hmore, hend⟩

namespace Draft

variable {d d' : Draft} {i p : Nat} {e : Element} {P Q : Element → Prop}

/-- The children of a node that are closed stay what they are. -/
theorem hasRawBody_spares (h : d.tree.HasRawBody i p) (hs : d.Spares d')
    (hclosed : ∀ j ∈ d.tree.children i, d.Closed j)
    (hchildren : d'.tree.children i = d.tree.children i) : d'.tree.HasRawBody i p := by
  obtain ⟨head, body, hsplit, hhead, hbody⟩ := h
  have hnode (j : Nat) (hj : j ∈ head ++ body) : d'.tree.node j = d.tree.node j :=
    (hs j (hclosed j (hsplit ▸ hj))).2
  refine ⟨head, body, hchildren.trans hsplit, fun j hj => ?_, ?_⟩
  · rw [Tree.kind, Tree.data, hnode j (List.mem_append_left _ hj)]
    exact hhead j hj
  · rcases hbody with rfl | ⟨j, s, rfl, hdata, hspan⟩
    · exact .inl rfl
    · have hj := hnode j (List.mem_append_right _ List.mem_cons_self)
      refine .inr ⟨j, s, rfl, ?_, ?_⟩
      · rw [Tree.data, hj]
        exact hdata
      · rw [Tree.span, hj]
        exact hspan

theorem closed_children_current (hshape : d.tree.Shape d.current) :
    ∀ j ∈ d.tree.children d.current, d.Closed j := by
  intro j hj
  rw [hshape.listed _ hshape.edge_lt] at hj
  have hp : d.tree.parent j = some d.current := by simpa using (List.mem_filter.1 hj).2
  exact closed_of_parent_current hshape hp

/-- The body of the element is complete, and the element is closed. -/
structure EndedBody (d : Draft) (P : Element → Prop) (i p : Nat) : Prop where
  closed : d.Closed i
  body : d.tree.HasRawBody i p
  ended : ∃ e, d.tree.data i = .element e ∧ P e

/-- **Nothing changes it any more.** -/
theorem EndedBody.spares (h : d.EndedBody P i p) (hshape : d.tree.Shape d.current)
    (hs : d.Spares d') (hmore : ∀ e, P e → Q e) : d'.EndedBody Q i p := by
  obtain ⟨hclosed, hnode⟩ := hs i h.closed
  obtain ⟨e, hdata, hend⟩ := h.ended
  have hchildren (j : Nat) (hj : j ∈ d.tree.children i) : d.Closed j := by
    rw [hshape.listed _ h.closed.lt] at hj
    exact h.closed.child (by simpa using (List.mem_filter.1 hj).2)
  refine ⟨hclosed, hasRawBody_spares h.body hs hchildren ?_, e, ?_, hmore e hend⟩
  · rw [Tree.children, hnode]
    rfl
  · rw [Tree.data, hnode]
    exact hdata

/-- The text of the body is attached behind the attributes. -/
theorem hasRawBody_leaf {t : Token} (h : d.tree.HasOnlyAttributes d.current)
    (hshape : d.tree.Shape d.current) (hstart : t.span.start = p) :
    (d.leaf (.rawText t.lexeme) t.span).tree.HasRawBody d.current p := by
  have hcurrent := hshape.edge_lt
  have hne : d.current ≠ d.tree.size := Nat.ne_of_lt hcurrent
  have hchildren : (d.leaf (.rawText t.lexeme) t.span).tree.children d.current
      = d.tree.children d.current ++ [d.tree.size] := by
    show ((d.tree.sprout _ _ _).setSpan _ _).children d.current = _
    rw [Tree.children_setSpan, Tree.children_sprout hcurrent, if_neg hne, if_pos rfl]
  refine ⟨_, _, hchildren, fun j hj => ?_, .inr ⟨_, t.lexeme, rfl, ?_, ?_⟩⟩
  · have hclosed := closed_children_current hshape j hj
    rw [Tree.kind, Tree.data, (spares_leaf hshape _ _ j hclosed).2]
    exact h j hj
  · exact (node_leaf _ _ hcurrent).1
  · show (((d.tree.sprout _ _ _).setSpan _ _).span d.tree.size).start = p
    rw [Tree.span_setSpan, if_neg fun heq => hne heq.1, Tree.span_sprout hcurrent, if_pos rfl]
    exact hstart

/-- The node that was open is closed. -/
theorem closed_close (hshape : d.tree.Shape d.current) (hroot : d.current ≠ Tree.root)
    (stop : Nat) : (d.close stop).Closed d.current := by
  obtain ⟨q, hlt, hq⟩ := hshape.older d.current (Nat.pos_of_ne_zero hroot) hshape.edge_lt
  have hq' : (d.close stop).tree.parent d.current = some q := (parent_close ..).trans hq
  have hshape' := shape_close hshape stop
  refine ⟨Tree.lt_size_of_parent hq', fun hunder => ?_⟩
  rw [current_close hq stop] at hunder hshape'
  exact absurd (hunder.le hshape') (Nat.not_le_of_lt hlt)

/-- What is recorded of the open node is no matter of its body. -/
theorem hasRawBody_set {data : NodeData} (h : d.tree.HasRawBody d.current p)
    (hshape : d.tree.Shape d.current) (htree : d'.tree = d.tree.setData d.current data)
    (hcurrent : d'.current = d.current) : d'.tree.HasRawBody d'.current p := by
  rw [hcurrent]
  refine hasRawBody_spares h ((spares_setCurrent d data).trans (spares_of_tree htree hcurrent))
    (closed_children_current hshape) ?_
  rw [htree, Tree.children_setData]

theorem hasRawBody_setCurrent (data : NodeData) (h : d.tree.HasRawBody d.current p)
    (hshape : d.tree.Shape d.current) : (d.setCurrent data).tree.HasRawBody d.current p :=
  hasRawBody_set h hshape rfl rfl

theorem hasRawBody_close (h : d.tree.HasRawBody d.current p) (hshape : d.tree.Shape d.current)
    (stop : Nat) : (d.close stop).tree.HasRawBody d.current p :=
  hasRawBody_spares h (spares_close d stop) (closed_children_current hshape)
    ((keepsChildren_close d stop).children _)

/-- The element is closed, and what is recorded of its end stays. -/
theorem endedBody_close (h : d.tree.HasRawBody d.current p) (hshape : d.tree.Shape d.current)
    (hroot : d.current ≠ Tree.root) (hdata : d.currentData = .element e) (hend : P e)
    (stop : Nat) : (d.close stop).EndedBody P d.current p :=
  ⟨closed_close hshape hroot stop, hasRawBody_close h hshape stop, e,
    (data_close ..).trans hdata, hend⟩

theorem endedBody_closeUnterminated (h : d.tree.HasRawBody d.current p)
    (hshape : d.tree.Shape d.current) (hroot : d.current ≠ Tree.root) {stop : Nat}
    (hdata : d.currentData = .element e)
    (hend : P { e with startTagEnd := some (e.startTagEnd.getD stop) }) :
    (d.closeUnterminated stop).EndedBody P d.current p ∧
      (d.closeUnterminated stop).tree.Shape (d.closeUnterminated stop).current := by
  obtain ⟨d', hclose, hcurrent, ⟨e', hdata', htree⟩ | ⟨hnone, _⟩⟩ := d.exists_closeUnterminated stop
  · rw [hdata] at hdata'
    obtain rfl := NodeData.element.inj hdata'
    have hshape' : d'.tree.Shape d'.current := by
      rw [htree, hcurrent]
      exact shape_setCurrent hshape _
    have hset : d'.currentData
        = .element { e with startTagEnd := some (e.startTagEnd.getD stop) } := by
      rw [currentData, htree, hcurrent]
      exact currentData_setCurrent _ hshape.edge_lt
    rw [hclose, ← hcurrent]
    exact ⟨endedBody_close (hasRawBody_set h hshape htree hcurrent) hshape' (hcurrent ▸ hroot) hset
      hend stop, shape_close hshape' stop⟩
  · rw [hdata] at hnone
    simp [NodeData.element?] at hnone

end Draft

/-! ## The way through a body -/

namespace RawElement

variable {text : Text} {r : RawElement} {p : Nat} {s : Scanner} {d d' : Draft} {ts : List Token}
  {t : Token} {e : Element}

/-- The context in which the body of the element is read. -/
def state : RawElement → ScannerState
  | script => .scriptBody
  | style => .styleBody

/-- What is left of the text behind the body that begins at the offset `p`. -/
def behind (r : RawElement) (text : Text) (p : Nat) : Text := r.skipBody (dropBytes p text)

/-- How far the scanner and the draft are with the body of the open element, which begins at `p`. -/
inductive Stage (text : Text) (r : RawElement) (p : Nat) (s : Scanner) (d : Draft)
    (ts : List Token) : Prop where
  /-- In front of the body. -/
  | body (state : s.memory.state = r.state) (rest : s.rest = dropBytes p text)
      (offset : s.offset = p) (attributes : d.tree.HasOnlyAttributes d.current)
  /-- Behind the body. -/
  | tag (state : s.memory.state = .content) (rest : s.rest = r.behind text p)
      (body : d.tree.HasRawBody d.current p)
  /-- Behind the bracket of the end tag. -/
  | name {o : Token} (state : s.memory.state = .endTagName)
      (rest : '<' :: '/' :: s.rest = r.behind text p) (body : d.tree.HasRawBody d.current p)
      (last : [o] <:+ ts) (bracket : o.kind = .endTagOpen) (start : d.endTagStart = o.span.start)
  /-- Behind the name of the end tag. -/
  | close {o n : Token} (state : s.memory.state = .endTag) (body : d.tree.HasRawBody d.current p)
      (pair : [o, n] <:+: ts) (bracket : o.kind = .endTagOpen)
      (start : d.endTagStart = o.span.start) (kind : n.kind = .endTag) (named : d.endTagName = some n.lexeme)
      (same : equalIgnoringCase n.lexeme r.name = true)

theorem Stage.of_tree (h : Stage text r p s d ts) (htree : d'.tree = d.tree)
    (hcurrent : d'.current = d.current) (hstart : d'.endTagStart = d.endTagStart)
    (hname : d'.endTagName = d.endTagName) : Stage text r p s d' ts := by
  cases h with
  | body state rest offset attributes =>
    exact .body state rest offset (by rw [htree, hcurrent]; exact attributes)
  | tag state rest body => exact .tag state rest (by rw [htree, hcurrent]; exact body)
  | name state rest body last bracket start =>
    exact .name state rest (by rw [htree, hcurrent]; exact body) last bracket (hstart.trans start)
  | close state body pair bracket start kind named same =>
    exact .close state (by rw [htree, hcurrent]; exact body) pair bracket (hstart.trans start) kind
      (hname.trans named) same

/-- Whatever the stage, there is nothing but the body. -/
theorem Stage.hasRawBody (h : Stage text r p s d ts) : d.tree.HasRawBody d.current p := by
  cases h with
  | body _ _ _ attributes => exact ⟨_, [], by simp, attributes, .inl rfl⟩
  | tag _ _ body => exact body
  | name _ _ body _ _ _ => exact body
  | close _ body _ _ _ _ _ _ => exact body

/-- The names of the two elements are the same if the case is ignored. -/
theorem equalIgnoringCase_of_ofName? {tag name : Text} (h : ofName? tag = some r)
    (hname : equalIgnoringCase name r.name = true) : equalIgnoringCase tag name = true := by
  have htag : equalIgnoringCase tag r.name = true := by
    unfold ofName? at h
    split at h
    · next hscript =>
      obtain rfl := Option.some.inj h
      exact hscript
    · split at h
      · next hstyle =>
        obtain rfl := Option.some.inj h
        exact hstyle
      · simp at h
  simp only [equalIgnoringCase, beq_iff_eq] at htag hname ⊢
  rw [htag, hname]

theorem leaveAttribute_of_element (hdata : d.currentData = .element e) : d.leaveAttribute = d := by
  simp only [Draft.leaveAttribute, hdata]

/-- Behind the body the scanner finds the bracket of the end tag. -/
theorem scan_bracket {w : Text} (state : s.memory.state = .content) (hd : s.dialect = .template)
    (hrest : s.rest = '<' :: '/' :: w) :
    s.scan = s.take .endTagOpen none w (s.memory.goto .endTagName) := by
  refine Scanner.scan_eq_take ?_
  rw [hrest, hd]
  simp only [Memory.step, Memory.stepWithin, state]
  rfl

theorem scan_name {w v : Text} (state : s.memory.state = .endTagName) (hrest : s.rest = w)
    (hw : w ≠ []) (hpass : passElementName? w = some v) :
    s.scan = s.take .endTag none v (s.memory.goto .endTag) := by
  refine Scanner.scan_eq_take ?_
  obtain ⟨c, w, rfl⟩ := List.exists_cons_of_ne_nil hw
  rw [hrest]
  simp only [Memory.step, Memory.stepWithin, state, Memory.scanEndTagName, hpass]
  rfl

/-- In an end tag space and strays are passed over until a bracket ends it. -/
theorem scan_endTag (state : s.memory.state = .endTag) (hrest : s.rest ≠ []) :
    ∃ kind error rest m, s.scan = s.take kind error rest m ∧
      ((kind = .whitespace ∨ kind = .unknown) ∧ m.state = .endTag ∨
        kind = .endTagClose ∧ m.state = .content) := by
  obtain ⟨c, w, hw⟩ := List.exists_cons_of_ne_nil hrest
  have hstep : s.memory.step s.dialect s.before s.rest = s.memory.scanEndTag (c :: w) := by
    simp only [hw, Memory.step, Memory.stepWithin, state]
  unfold Memory.scanEndTag at hstep
  split at hstep
  · exact ⟨_, _, _, _, Scanner.scan_eq_take hstep, .inl ⟨.inl rfl, state⟩⟩
  · split at hstep
    · exact ⟨_, _, _, _, Scanner.scan_eq_take hstep, .inr ⟨rfl, rfl⟩⟩
    · exact ⟨_, _, _, _, Scanner.scan_eq_take hstep, .inr ⟨rfl, rfl⟩⟩
    · exact ⟨_, _, _, _, Scanner.scan_eq_take hstep, .inl ⟨.inr rfl, state⟩⟩

/-- The text of the body, unless there is none. -/
theorem scan_body (state : s.memory.state = r.state) (hrest : s.rest ≠ []) :
    s.scan = s.take .rawText none (r.skipBody s.rest) (s.memory.goto .content) ∨
      r.skipBody s.rest = s.rest ∧
        ({ s with memory := s.memory.goto .content } : Scanner).scan = s.scan := by
  obtain ⟨c, w, hw⟩ := List.exists_cons_of_ne_nil hrest
  have hstep : s.memory.step s.dialect s.before s.rest = s.memory.scanRawText r s.rest := by
    cases r <;> simp only [RawElement.state] at state <;>
      simp only [hw, Memory.step, Memory.stepWithin, state]
  unfold Memory.scanRawText at hstep
  dsimp only at hstep
  split at hstep
  · exact .inl (Scanner.scan_eq_take hstep)
  · next hlength =>
    refine .inr ⟨?_, Scanner.scan_of_turn hstep⟩
    exact (skipBody_suffix r s.rest).eq_of_length_le (Nat.le_of_not_lt hlength)

/-- Where a body ends there is nothing left, or the end tag of the element. -/
theorem behind_eq (hname : r.nameGoesOn (r.behind text p) = false) (hne : r.behind text p ≠ []) :
    ∃ name v, r.behind text p = '<' :: '/' :: (name ++ v) ∧
      equalIgnoringCase name r.name = true ∧ passElementName? (name ++ v) = some v :=
  exists_endTag ((outside_skipBody r _).2.resolve_right hne) hname

/-- **The bracket** behind a body opens the end tag. -/
theorem Stage.scan_tag (hrest : s.rest = r.behind text p) (hne : s.rest ≠ [])
    (state : s.memory.state = .content) (hd : s.dialect = .template)
    (body : d.tree.HasRawBody d.current p) (hdata : d.currentData = .element e)
    (hname : r.nameGoesOn (r.behind text p) = false) :
    Stage text r p s.scan.2 (d.build s.scan.1) (ts ++ [s.scan.1]) ∧
      (d.build s.scan.1).current = d.current ∧ (d.build s.scan.1).currentData = .element e := by
  obtain ⟨name, v, hread, _, _⟩ := behind_eq hname (hrest ▸ hne)
  rw [scan_bracket state hd (hrest.trans hread)]
  have hbuild (t : Token) (hkind : t.kind = .endTagOpen) : d.build t
      = { d with endTagStart := t.span.start, endTagName := none } := by
    simp only [Draft.build, hkind, Draft.endTagOpen, leaveAttribute_of_element hdata]
  rw [hbuild _ rfl]
  exact ⟨.name rfl hread.symm body (List.suffix_append _ _) rfl rfl, rfl, hdata⟩

/-- **The name** of the end tag is that of the element. -/
theorem Stage.scan_name {o : Token} (rest : '<' :: '/' :: s.rest = r.behind text p)
    (state : s.memory.state = .endTagName) (hrest : s.rest ≠ [])
    (body : d.tree.HasRawBody d.current p) (last : [o] <:+ ts) (bracket : o.kind = .endTagOpen)
    (start : d.endTagStart = o.span.start) (hname : r.nameGoesOn (r.behind text p) = false) :
    Stage text r p s.scan.2 (d.build s.scan.1) (ts ++ [s.scan.1]) ∧
      d.build s.scan.1 = { d with endTagName := some s.scan.1.lexeme } := by
  obtain ⟨name, v, hread, hsame, hpass⟩ := behind_eq hname (by rw [← rest]; simp)
  have hread : s.rest = name ++ v := by
    rw [← rest] at hread
    simpa using hread
  have hscan := RawElement.scan_name state hread (hread ▸ hrest) hpass
  have hbuild : d.build s.scan.1 = { d with endTagName := some s.scan.1.lexeme } := by
    rw [hscan]
    rfl
  have hlexeme : s.scan.1.lexeme = name := by
    rw [hscan]
    show Text.before s.rest v = name
    rw [hread, Text.before_append]
  refine ⟨?_, hbuild⟩
  rw [hbuild]
  refine .close (by rw [hscan]; rfl) body ?_ bracket start (by rw [hscan]; rfl) rfl
    (hlexeme ▸ hsame)
  -- the two tokens stand at the end of what has been read
  obtain ⟨front, rfl⟩ := last
  exact ⟨front, [], by simp⟩

/-- **A token in the body of an element** leads one stage on, or it closes the element. -/
theorem Stage.scan (h : Stage text r p s d ts) (hrest : s.rest ≠ []) (hd : s.dialect = .template)
    (hdata : d.currentData = .element e) (hraw : ofName? e.tag = some r)
    (hshape : d.tree.Shape d.current) (hroot : d.current ≠ Tree.root)
    (hname : r.nameGoesOn (r.behind text p) = false) :
    Stage text r p s.scan.2 (d.build s.scan.1) (ts ++ [s.scan.1]) ∧
        (d.build s.scan.1).current = d.current ∧ (d.build s.scan.1).currentData = .element e ∨
      (d.build s.scan.1).EndedBody (Element.EndsAtTag (ts ++ [s.scan.1])) d.current p := by
  cases h with
  | body state rest offset attributes =>
    rcases scan_body state hrest with hscan | ⟨hempty, hturn⟩
    · rw [hscan]
      have hbuild (t : Token) (hkind : t.kind = .rawText) :
          d.build t = d.leaf (.rawText t.lexeme) t.span := by
        simp only [Draft.build, hkind]
      rw [hbuild _ rfl]
      refine .inl ⟨.tag rfl (by rw [behind, ← rest]; rfl) ?_, rfl, ?_⟩
      · exact Draft.hasRawBody_leaf attributes hshape offset
      · have hcurrent := hshape.edge_lt
        show ((d.tree.sprout _ _ _).setSpan _ _).data d.current = _
        rw [Tree.data_setSpan, Tree.data_sprout hcurrent, if_neg (Nat.ne_of_lt hcurrent)]
        exact hdata
    -- an empty body is passed over without a token
    · rw [← hturn]
      refine .inl (Stage.scan_tag ?_ hrest rfl hd ?_ hdata hname)
      · rw [behind, ← rest, hempty]
      · exact ⟨_, [], by simp, attributes, .inl rfl⟩
  | tag state rest body => exact .inl (Stage.scan_tag rest hrest state hd body hdata hname)
  | name state rest body last bracket start =>
    obtain ⟨hstage, hbuild⟩ := Stage.scan_name rest state hrest body last bracket start hname
    exact .inl ⟨hstage, by rw [hbuild], by rw [hbuild]; exact hdata⟩
  | @close o n state body pair bracket start kind named same =>
    obtain ⟨tokenKind, error, rest, m, hscan, ⟨hidle, hm⟩ | ⟨hclose, _⟩⟩ :=
      scan_endTag state hrest
    · have hbuild : d.build s.scan.1 = d := by
        rw [hscan]
        exact TemplateArtifact.build_of_idle hidle
      rw [hbuild]
      have hpair := pair.trans (List.prefix_append ts [s.scan.1]).isInfix
      have hstate : s.scan.2.memory.state = .endTag := by rw [hscan]; exact hm
      exact .inl ⟨.close hstate body hpair bracket start kind named same, rfl, hdata⟩
    · have hsame : equalIgnoringCase e.tag n.lexeme = true :=
        equalIgnoringCase_of_ofName? hraw same
      have hbuild : d.build s.scan.1 = d.endTagClose s.scan.1.span.stop := by
        have hkind : s.scan.1.kind = .endTagClose := by rw [hscan]; exact hclose
        simp only [Draft.build, hkind]
      rw [hbuild, Draft.endTagClose_of_current named hdata hsame hshape]
      have hends : ({ e with endTagStart := some d.endTagStart } : Element).EndsAtTag
          (ts ++ [s.scan.1]) :=
        ⟨o, n, pair.trans (List.prefix_append ts _).isInfix, bracket, kind, congrArg some start,
          hsame⟩
      generalize s.scan.1.span.stop = stop
      generalize ts ++ [s.scan.1] = more at hends ⊢
      exact .inr (Draft.endedBody_close (d := Draft.setCurrent { d with endTagName := none } _)
        (Draft.hasRawBody_setCurrent _ body hshape) (Draft.shape_setCurrent hshape _) hroot
        (Draft.currentData_setCurrent _ hshape.edge_lt) hends stop)

end RawElement

/-! ## All tokens -/

namespace RawElement

variable {text : Text} {r : RawElement} {p i : Nat} {s : Scanner} {d : Draft} {ts : List Token}
  {e : Element}

/-- The node is an element of the kind, its start tag ends at `p` with a bracket, and behind the body
that begins there the name of the end tag is not longer than that of the element. -/
structure Opens (text : Text) (ts : List Token) (data : NodeData) (r : RawElement) (p : Nat) :
    Prop where
  start : ∃ tag, data.startTag? = some (tag, p) ∧ ofName? tag = some r
  bracket : ∃ c ∈ ts, c.kind = .startTagClose ∧ c.error = none ∧ c.span.stop = p
  name : r.nameGoesOn (r.behind text p) = false

/-- The body of the element `i` is being read. -/
structure InBody (text : Text) (r : RawElement) (p : Nat) (s : Scanner) (d : Draft)
    (ts : List Token) (i : Nat) : Prop where
  current : d.current = i
  element : ∃ e, d.currentData = .element e ∧ ofName? e.tag = some r ∧ e.endTagStart = none
  stage : Stage text r p s d ts

/-- The scanner and the draft behind the tokens `ts`: every element with an opaque body is in it, or
closed behind it. -/
structure Tracked (text : Text) (s : Scanner) (d : Draft) (ts : List Token) : Prop where
  within : s.Within text
  template : s.dialect = .template
  attuned : d.Attuned text s
  tagged : d.Tagged s.memory s.offset ts
  ended : ∀ j tag stop, (d.tree.data j).startTag? = some (tag, stop) → stop ≤ s.offset
  read : ∀ c ∈ ts, c.span.stop ≤ s.offset
  bodies : ∀ i r p, Opens text ts (d.tree.data i) r p →
    d.EndedBody (Element.EndsAtTag ts) i p ∨ InBody text r p s d ts i

theorem state_of_ofName? {tag : Text} (h : ofName? tag = some r) :
    Memory.bodyState tag = r.state := by
  rw [Memory.bodyState, h]
  cases r <;> rfl

/-- Behind the start tag the body begins. -/
theorem inBody_of_atBody {m : Memory} {tag : Text} (h : d.AtBody m i tag p)
    (hraw : ofName? tag = some r) (hw : s.Within text) (hoffset : s.offset = p)
    (hstate : s.memory.state = m.state) : InBody text r p s d ts i := by
  obtain ⟨e, hdata, rfl, _, hend⟩ := h.data
  refine ⟨h.current, ⟨e, hdata, hraw, hend⟩, .body ?_ ?_ hoffset ?_⟩
  · rw [hstate, h.state, state_of_ofName? hraw]
  · obtain ⟨read, rfl, hsize, _⟩ := hw
    rw [← hoffset, hsize, dropBytes_append]
  · rw [h.current]
    exact h.attributes

theorem takeToken_same (d : Draft) (t : Token) :
    (d.takeToken t).tree = (d.build t).tree ∧ (d.takeToken t).current = (d.build t).current ∧
      (d.takeToken t).endTagStart = (d.build t).endTagStart ∧
      (d.takeToken t).endTagName = (d.build t).endTagName := by
  unfold Draft.takeToken
  split <;> exact ⟨rfl, rfl, rfl, rfl⟩

/-- The draft fits the context. -/
theorem Tracked.exists_follows (h : Tracked text s d ts) :
    ∃ reading : TemplateArtifact.Reading, reading.draft = d ∧
      TemplateArtifact.Follows text s reading ∧ TemplateArtifact.Named s.memory d := by
  rcases h.attuned with ⟨prose, _⟩ | hfollows
  · exact absurd h.template prose
  · exact hfollows

theorem Tracked.shape (h : Tracked text s d ts) : d.tree.Shape d.current := by
  obtain ⟨_, rfl, hfollows, _⟩ := h.exists_follows
  exact hfollows.synced.shape

theorem Tracked.root_kind (h : Tracked text s d ts) : d.tree.kind Tree.root = .root := by
  obtain ⟨_, rfl, hfollows, _⟩ := h.exists_follows
  obtain ⟨_, hstands⟩ := hfollows.synced.stands
  exact hstands.chain.root_kind

theorem current_ne_root (hdata : d.currentData = .element e)
    (hroot : d.tree.kind Tree.root = .root) : d.current ≠ Tree.root := by
  intro heq
  have hkind : d.tree.kind d.current = .element := congrArg NodeData.kind hdata
  rw [heq, hroot] at hkind
  simp at hkind

/-- A token in the body of the element, or behind it. -/
theorem InBody.scan (h : InBody text r p s d ts i) (hrest : s.rest ≠ [])
    (hd : s.dialect = .template) (hshape : d.tree.Shape d.current)
    (hroot : d.tree.kind Tree.root = .root) (hname : r.nameGoesOn (r.behind text p) = false) :
    (d.takeToken s.scan.1).EndedBody (Element.EndsAtTag (ts ++ [s.scan.1])) i p ∨
      InBody text r p s.scan.2 (d.takeToken s.scan.1) (ts ++ [s.scan.1]) i := by
  obtain ⟨rfl, ⟨e, hdata, hraw, hend⟩, hstage⟩ := h
  obtain ⟨htree, hcurrent, hstart, htag⟩ := takeToken_same d s.scan.1
  have hne := current_ne_root hdata hroot
  rcases hstage.scan hrest hd hdata hraw hshape hne hname with ⟨hnext, hsame, hdata'⟩ | hended
  · refine .inr ⟨hcurrent.trans hsame, ⟨e, ?_, hraw, hend⟩,
      hnext.of_tree htree hcurrent hstart htag⟩
    rw [Draft.currentData, htree, hcurrent]
    exact hdata'
  · refine .inl ⟨⟨?_, ?_⟩, ?_, ?_⟩
    · rw [htree]
      exact hended.closed.lt
    · rw [htree, hcurrent]
      exact hended.closed.off
    · rw [htree]
      exact hended.body
    · rw [htree]
      exact hended.ended

/-- What is known of the start tags, behind the next token. -/
theorem Tracked.tagged_scan (h : Tracked text s d ts) (hrest : s.rest ≠ []) :
    (d.build s.scan.1).Tagged s.scan.2.memory s.scan.2.offset (ts ++ [s.scan.1]) ∧
      (s.scan.1.kind ≠ .startTagClose ∧ d.KeepsStarts (d.build s.scan.1) ∨
        ∃ m i, s.scan.2.memory.state = m.state ∧
          d.EndsStartTag (d.build s.scan.1) ts s.offset s.scan.1 m i) := by
  have hbuilt : (d.build s.scan.1).tree.Shape (d.build s.scan.1).current := by
    obtain ⟨htree, hcurrent, _⟩ := takeToken_same d s.scan.1
    rcases h.attuned.scan h.within with ⟨prose, _⟩ | ⟨reading, hdraft, hfollows, _⟩
    · rw [Scanner.scan_dialect] at prose
      exact absurd h.template prose
    · have hshape := hfollows.synced.shape
      rwa [hdraft, htree, hcurrent] at hshape
  obtain ⟨reading, rfl, hfollows, hnamed⟩ := h.exists_follows
  have hspan := s.scan_span
  obtain ⟨m, kind, error, rest, m', hturns, hyields, hscan⟩ := Scanner.scan_before_end hrest
  rw [h.template] at hyields
  obtain ⟨hsynced, hnamed, hin⟩ := hturns.keeps
    (P := fun m => TemplateArtifact.Synced text m s.rest s.offset reading.pieces reading.draft ∧
      TemplateArtifact.Named m reading.draft ∧ m.inStartTag = s.memory.inStartTag)
    (fun _ _ h hturn => ⟨h.1.turns hturn, h.2.1.turns hturn, hturn.inStartTag.trans h.2.2⟩)
    ⟨hfollows.synced, hnamed, rfl⟩
  have htagged : reading.draft.Tagged m s.offset ts := by
    have htagged := h.tagged
    unfold Draft.Tagged at htagged ⊢
    rwa [hin]
  have hstop : s.scan.1.span.stop = s.scan.2.offset := by rw [hspan.1]
  obtain ⟨htagged, hstarts⟩ := TemplateArtifact.Tagged.step (t := s.scan.1) htagged hsynced hnamed
    hyields (by rw [hscan]; rfl) (by rw [hscan]; rfl) (by rw [hscan]; rfl)
    (hstop.trans hspan.2) h.read hbuilt
  have hmemory : s.scan.2.memory = { m' with lastKind := some kind } := by
    rw [hscan]
    rfl
  refine ⟨?_, hstarts.imp_right fun ⟨i, hends⟩ => ⟨m', i, by rw [hmemory], hends⟩⟩
  rw [← hstop, hmemory]
  exact htagged

/-- An element whose start tag has ended before stays in its body, or behind it. -/
theorem Tracked.bodies_scan (h : Tracked text s d ts) (hrest : s.rest ≠ [])
    (ho : Opens text ts (d.tree.data i) r p) :
    (d.takeToken s.scan.1).EndedBody (Element.EndsAtTag (ts ++ [s.scan.1])) i p ∨
      InBody text r p s.scan.2 (d.takeToken s.scan.1) (ts ++ [s.scan.1]) i := by
  rcases h.bodies i r p ho with hended | hin
  · refine .inl (hended.spares h.shape (Draft.spares_takeToken h.shape _) fun _ hend => ?_)
    exact hend.mono (List.prefix_append ts _).isInfix
  · exact hin.scan hrest h.template h.shape h.root_kind ho.name

/-- An element whose start tag ends with the token is in front of its body, and no other element has
a start tag that ends there. -/
theorem Tracked.begins_body {m : Memory} {j : Nat} {tag : Text} (h : Tracked text s d ts)
    (hends : d.EndsStartTag (d.build s.scan.1) ts s.offset s.scan.1 m j)
    (hstate : s.scan.2.memory.state = m.state) (hkind : s.scan.1.kind = .startTagClose)
    (hfine : s.scan.1.error = none) (hraw : ofName? tag = some r)
    (hstart : ((d.build s.scan.1).tree.data i).startTag? = some (tag, s.scan.1.span.stop)) :
    InBody text r s.scan.1.span.stop s.scan.2 (d.takeToken s.scan.1) (ts ++ [s.scan.1]) i := by
  obtain ⟨htree, hcurrent, _⟩ := takeToken_same d s.scan.1
  obtain ⟨hlt, hbody⟩ := hends.body hkind hfine
  -- the other start tags have ended before
  obtain rfl : i = j := by
    refine Decidable.byContradiction fun hne => ?_
    rw [hends.others i hne] at hstart
    exact absurd (h.ended i _ _ hstart) (Nat.not_le_of_lt hlt)
  have hcloses : Memory.bodyState tag ≠ .content := by
    rw [state_of_ofName? hraw]
    cases r <;> simp [RawElement.state]
  obtain ⟨hcurrent', hstate', hdata', hattributes⟩ := hbody tag hstart hcloses
  have hatBody : (d.takeToken s.scan.1).AtBody m i tag s.scan.1.span.stop := by
    refine ⟨hcurrent.trans hcurrent', hstate', ?_, ?_⟩
    · rw [Draft.currentData, htree, hcurrent]
      exact hdata'
    · rw [htree]
      exact hattributes
  have hstop : s.scan.1.span.stop = s.scan.2.offset := by rw [s.scan_span.1]
  exact inBody_of_atBody hatBody hraw h.within.scan hstop.symm hstate

/-- **One token.** -/
theorem Tracked.scan (h : Tracked text s d ts) (hrest : s.rest ≠ []) :
    Tracked text s.scan.2 (d.takeToken s.scan.1) (ts ++ [s.scan.1]) := by
  obtain ⟨htree, hcurrent, _⟩ := takeToken_same d s.scan.1
  obtain ⟨htagged, hstarts⟩ := h.tagged_scan hrest
  have hspan := s.scan_span
  have hstop : s.scan.1.span.stop = s.scan.2.offset := by rw [hspan.1]
  have hle : s.offset ≤ s.scan.2.offset := by omega
  refine ⟨h.within.scan, s.scan_dialect.trans h.template, h.attuned.scan h.within,
    htagged.of_tree htree hcurrent, ?_, ?_, ?_⟩
  · intro j tag stop hj
    rw [htree] at hj
    rcases hstarts with ⟨_, hkeeps⟩ | ⟨m, i, _, hends⟩
    · rw [hkeeps j] at hj
      exact Nat.le_trans (h.ended j tag stop hj) hle
    · by_cases hji : j = i
      · obtain ⟨tag', hended⟩ := hends.ended
        rw [hji, hended] at hj
        obtain ⟨_, rfl⟩ := Prod.mk.inj (Option.some.inj hj)
        exact Nat.le_of_eq hstop
      · rw [hends.others j hji] at hj
        exact Nat.le_trans (h.ended j tag stop hj) hle
  · intro c hc
    rcases List.mem_append.1 hc with hc | hc
    · exact Nat.le_trans (h.read c hc) hle
    · rw [List.mem_singleton.1 hc]
      exact Nat.le_of_eq hstop
  · intro i r p ho
    rw [htree] at ho
    obtain ⟨⟨tag, hstart, hraw⟩, ⟨c, hc, hkind, hfine, rfl⟩, hname⟩ := ho
    have hbefore (hc : c ∈ ts)
        (hsame : ((d.build s.scan.1).tree.data i).startTag? = (d.tree.data i).startTag?) :
        Opens text ts (d.tree.data i) r c.span.stop :=
      ⟨⟨tag, hsame ▸ hstart, hraw⟩, ⟨c, hc, hkind, hfine, rfl⟩, hname⟩
    -- the bracket is an older one, or the token
    rcases List.mem_append.1 hc with hc | hc
    · rcases hstarts with ⟨_, hkeeps⟩ | ⟨_, j, _, hends⟩
      · exact h.bodies_scan hrest (hbefore hc (hkeeps i))
      · have hne : i ≠ j := by
          rintro rfl
          obtain ⟨tag', hended⟩ := hends.ended
          rw [hended] at hstart
          have hlater := hends.later c hc hkind
          rw [(Prod.mk.inj (Option.some.inj hstart)).2] at hlater
          exact absurd hlater (Nat.lt_irrefl _)
        exact h.bodies_scan hrest (hbefore hc (hends.others i hne))
    · obtain rfl := List.mem_singleton.1 hc
      rcases hstarts with ⟨hnot, _⟩ | ⟨m, j, hstate, hends⟩
      · exact absurd hkind hnot
      · exact .inr (h.begins_body hends hstate hkind hfine hraw hstart)

/-- **All tokens.** The one that stands for the end of the text says nothing new. -/
theorem Tracked.run (fuel : Nat) : ∀ {s : Scanner} {d : Draft} {ts : List Token},
    Tracked text s d ts →
    ∃ s' ts', Tracked text s' ((s.tokensIn fuel).foldl Draft.takeToken d) ts' ∧
      ts' <+: ts ++ s.tokensIn fuel ∧
      ∀ c ∈ ts ++ s.tokensIn fuel, c.kind = .startTagClose → c ∈ ts' := by
  induction fuel with
  | zero =>
    intro s d ts h
    exact ⟨s, ts, h, by simp [Scanner.tokensIn],
      fun c hc _ => by simpa [Scanner.tokensIn] using hc⟩
  | succ fuel ih =>
    intro s d ts h
    by_cases heos : s.scan.1.kind = .eos
    · have htokens : s.tokensIn (fuel + 1) = [s.scan.1] := by
        simp only [Scanner.tokensIn, heos, if_true]
      have hlast : d.takeToken s.scan.1 = d := by
        rw [Scanner.scan_at_end ((s.scan_kind_eq_eos_iff).1 heos)]
        rfl
      rw [htokens, List.foldl_cons, List.foldl_nil, hlast]
      refine ⟨s, ts, h, List.prefix_append _ _, fun c hc hkind => ?_⟩
      rcases List.mem_append.1 hc with hc | hc
      · exact hc
      · rw [List.mem_singleton.1 hc, heos] at hkind
        simp at hkind
    · have htokens : s.tokensIn (fuel + 1) = s.scan.1 :: s.scan.2.tokensIn fuel := by
        simp only [Scanner.tokensIn, heos, if_false]
      have hrest : s.rest ≠ [] := fun hnil => heos ((s.scan_kind_eq_eos_iff).2 hnil)
      have happend : ts ++ s.scan.1 :: s.scan.2.tokensIn fuel
          = ts ++ [s.scan.1] ++ s.scan.2.tokensIn fuel := by simp
      rw [htokens, List.foldl_cons, happend]
      exact ih (h.scan hrest)

theorem tracked_start (text : Text) :
    Tracked text (Scanner.start .template text) (Draft.start .template text) [] := by
  have hnone (j : Nat) : ((Draft.start .template text).tree.data j).startTag? = none := by
    cases j <;> rfl
  refine ⟨Scanner.start_within .template text, rfl, Draft.attuned_start .template text,
    Draft.tagged_start text, ?_, ?_, ?_⟩
  · intro j tag stop hj
    rw [hnone] at hj
    simp at hj
  · exact fun c hc => absurd hc List.not_mem_nil
  · intro i r p ho
    obtain ⟨c, hc, _⟩ := ho.bracket
    exact absurd hc List.not_mem_nil

/-! ## The end of the text -/

/-- Where the text ends in the body of an element, or in its end tag, the element ends with it. -/
theorem InBody.finish (h : InBody text r p s d ts i) (hshape : d.tree.Shape d.current)
    (hroot : d.tree.kind Tree.root = .root) :
    d.finish.EndedBody (fun e => e.endTagStart = some (size d.tree.text)) i p := by
  obtain ⟨rfl, ⟨e, hdata, _, hend⟩, hstage⟩ := h
  have hne := current_ne_root hdata hroot
  obtain ⟨fuel, hfuel⟩ : ∃ fuel, d.tree.size = fuel + 1 :=
    ⟨d.tree.size - 1, by have := hshape.edge_lt; omega⟩
  generalize hstop : size d.tree.text = stop
  -- the element is the first that is closed
  have hfinish : d.finish
      = Draft.finishIn fuel stop ((d.supplyEndTagStart stop).closeUnterminated stop) := by
    unfold Draft.finish
    rw [hfuel, hstop, Draft.finishIn, if_neg hne]
  have hsupply : d.supplyEndTagStart stop
      = d.setCurrent (.element { e with endTagStart := some stop }) := by
    simp only [Draft.supplyEndTagStart, hdata, hend, Option.none_or]
  obtain ⟨hended, hshape'⟩ := Draft.endedBody_closeUnterminated
    (d := d.setCurrent (.element { e with endTagStart := some stop }))
    (P := fun e => e.endTagStart = some stop)
    (Draft.hasRawBody_setCurrent _ hstage.hasRawBody hshape)
    (Draft.shape_setCurrent hshape _) hne (Draft.currentData_setCurrent _ hshape.edge_lt) rfl
  rw [hfinish, hsupply]
  exact hended.spares hshape' (Draft.spares_finishIn stop fuel _) fun _ h => h

theorem Tracked.text_eq (h : Tracked text s d ts) : d.tree.text = text := by
  obtain ⟨_, rfl, hfollows, _⟩ := h.exists_follows
  obtain ⟨_, hstands⟩ := hfollows.synced.stands
  exact hstands.text_eq

/-- A start tag that a bracket ends has the same end when the text ends. -/
theorem Tracked.startTag?_finish {c : Token} {tag : Text} (h : Tracked text s d ts) (hc : c ∈ ts)
    (hkind : c.kind = .startTagClose)
    (hend : (d.finish.tree.data i).startTag? = some (tag, c.span.stop)) :
    (d.tree.data i).startTag? = some (tag, c.span.stop) := by
  have htagged := h.tagged
  unfold Draft.Tagged at htagged
  split at htagged
  · obtain ⟨_, _, _, hamid⟩ := htagged
    rcases Draft.startTag?_finishIn (size d.tree.text) d.tree.size i d with hsame | ⟨tag', hmade⟩
    · exact hsame ▸ hend
    -- the end that is made up for the open start tag lies behind every bracket
    · obtain ⟨read, htext, hoffset, _⟩ := h.within
      have hmade : some (tag, c.span.stop) = some (tag', size d.tree.text) := hend.symm.trans hmade
      have hstop : c.span.stop = size text := by
        rw [(Prod.mk.inj (Option.some.inj hmade)).2, h.text_eq]
      have hlater := hamid.later c hc hkind
      have hsize : size text = size read + size s.rest := by rw [htext, size_append]
      omega
  · exact ((Draft.closes_finishIn _ _ d htagged).2 i) ▸ hend

end RawElement

/-- **The body of a script or style element is one piece of text, and the element ends with it**, in
front of an end tag of its name or at the end of the text: in a template, if a bracket ends the start
tag, and behind the body no name stands that is longer than that of the element. -/
theorem Parse.raw_body {text : Text} {i : NodeId} {e : Element} {r : RawElement} {c : Token}
    (hdata : (draft .template text).tree.data i = .element e)
    (hraw : RawElement.ofName? e.tag = some r) (hc : c ∈ tokenize .template text)
    (hkind : c.kind = .startTagClose) (hfine : c.error = none)
    (hend : e.startTagEnd = some c.span.stop)
    (hname : r.nameGoesOn (r.behind text c.span.stop) = false) :
    (draft .template text).tree.HasRawBody i c.span.stop ∧
      (e.EndsAtTag (tokenize .template text) ∨ e.endTagStart = some (size text)) := by
  obtain ⟨s, ts, htracked, hprefix, hclosing⟩ :=
    (RawElement.tracked_start text).run (tokenLimit text)
  have hbracket : c ∈ ts := hclosing c hc hkind
  -- what is said of the document is said of the draft behind its last token
  have hfinal : ((draft .template text).tree.data i).startTag? = some (e.tag, c.span.stop) := by
    rw [hdata]
    simp [NodeData.startTag?, NodeData.element?, hend]
  have hstart := htracked.startTag?_finish hbracket hkind hfinal
  rcases htracked.bodies i r c.span.stop
    ⟨⟨e.tag, hstart, hraw⟩, ⟨c, hbracket, hkind, hfine, rfl⟩, hname⟩ with hended | hin
  · obtain ⟨_, hbody, e', hdata', htag⟩ := hended.spares htracked.shape (Draft.spares_finish _)
      fun _ h => h.mono hprefix.isInfix
    obtain rfl := NodeData.element.inj (hdata.symm.trans hdata')
    exact ⟨hbody, .inl htag⟩
  · obtain ⟨_, hbody, e', hdata', htext⟩ := hin.finish htracked.shape htracked.root_kind
    obtain rfl := NodeData.element.inj (hdata.symm.trans hdata')
    rw [htracked.text_eq] at htext
    exact ⟨hbody, .inr htext⟩

/-- An attribute, and an end tag in capitals. -/
theorem Parse.raw_body_capitals :
    (draft .template "<script a>x</SCRIPT >".toList).tree.HasRawBody 1 10 ∧
      (({ tag := "script".toList, startTagEnd := some 10, endTagStart := some 11 } :
          Element).EndsAtTag (tokenize .template "<script a>x</SCRIPT >".toList) ∨
        some 11 = some (size "<script a>x</SCRIPT >".toList)) :=
  Parse.raw_body (r := .script) (c := ⟨.startTagClose, ⟨9, 10⟩, ['>'], none⟩) (by decide +kernel)
    (by decide +kernel) (by decide +kernel) rfl rfl rfl (by decide +kernel)

/-- **Where the name goes on the body does not end the element.** The scanner leaves the body in front
of `</scripty`, and the draft finds no element to close: what follows is read as content, and the
script gets a second child. -/
theorem Parse.raw_body_continues :
    let text := "<script>a</scripty>b</script>".toList
    let tree := (draft .template text).tree
    (tree.data 1 = .element
        { tag := "script".toList, startTagEnd := some 8, endTagStart := some 20 } ∧
      ⟨.startTagClose, ⟨7, 8⟩, ['>'], none⟩ ∈ tokenize .template text) ∧
      (tree.children 1 = [2, 3] ∧ tree.kind 2 = .rawText ∧ tree.kind 3 = .text) ∧
      ¬ tree.HasRawBody 1 8 := by
  intro text tree
  have hchildren : tree.children 1 = [2, 3] ∧ tree.kind 2 = .rawText ∧ tree.kind 3 = .text := by
    decide +kernel
  refine ⟨by decide +kernel, hchildren, ?_⟩
  rintro ⟨head, body, hsplit, hhead, hbody⟩
  rw [hchildren.1] at hsplit
  cases head with
  | nil => rcases hbody with rfl | ⟨_, _, rfl, _⟩ <;> simp at hsplit
  | cons j head =>
    -- the first of the two would have to be an attribute
    obtain rfl := (List.cons.inj hsplit).1
    have hkind := hhead 2 List.mem_cons_self
    rw [hchildren.2.1] at hkind
    simp at hkind

end HybridMarkup
