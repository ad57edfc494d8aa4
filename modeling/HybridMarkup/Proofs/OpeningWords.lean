/-
The words of an opening line.

The opening line of a fenced block is a stretch of the tokens, from the fence that opens the block to
the token of its body or the fence that closes it. The words in it are all kept: the first is the
language of the block, and the others are its attributes, in their order (`Tree.OpeningLine`). Only
of the block that is open its opening line may still be read, and it is as long as the scanner is on
that line (`Draft.Blocks`).

Main statement: `Draft.Abreast.blocks`, that one more token keeps it so.
-/
import HybridMarkup.Proofs.AttributeNodes

set_option autoImplicit false

namespace HybridMarkup

open Text

/-- The tokens that end the opening line of a block. -/
def TokenKind.endsOpening : TokenKind → Bool
  | codeBlockStart | codeBlockContent | codeBlockEnd | eos => true
  | _ => false

/-- The words among the tokens. -/
def words (ts : List Token) : List Token := ts.filter fun t => t.kind == .codeBlockAttribute

namespace Memory

variable {dialect : Dialect} {before : Option Char} {m m' : Memory} {u rest : Text}
  {kind : TokenKind} {error : Option LexError}

/-- A fence leads to an opening line. -/
theorem Yields.of_codeBlockStart (h : m.Yields dialect before u .codeBlockStart error rest m') :
    m'.state = .fenceInfo := by
  cases h with
  | codeBlockStart _ _ _ => rfl

/-- Words stand on opening lines. -/
theorem Yields.of_word (h : m.Yields dialect before u .codeBlockAttribute error rest m') :
    m.state = .fenceInfo := by
  cases h with
  | codeBlockAttribute state _ => exact state

/-- On the opening line of a block there are words and spaces. -/
theorem Yields.on_opening (h : m.Yields dialect before u kind error rest m')
    (state : m.state = .fenceInfo) :
    (kind = .codeBlockAttribute ∨ kind = .whitespace) ∧
      (m'.state = .fenceInfo ∨ m'.state = .fenceBody) := by
  cases h with
  | codeBlockAttribute _ _ => exact ⟨.inl rfl, .inl state⟩
  | fenceLineEnd _ _ => exact ⟨.inr rfl, .inr rfl⟩
  | fenceLineSpace _ _ => exact ⟨.inr rfl, .inl state⟩
  | rawText e other _ _ => cases e <;> simp [state] at other
  | _ => simp_all

/-- Behind the opening line there is the body of the block, and its end. -/
theorem Yields.behind_opening (h : m.Yields dialect before u kind error rest m')
    (state : m.state = .fenceBody) :
    (kind = .codeBlockContent ∨ kind = .codeBlockEnd) ∧ m'.state ≠ .fenceInfo := by
  cases h with
  | codeBlockContent _ _ _ => exact ⟨.inl rfl, by simp [state]⟩
  | codeBlockEnd _ _ => exact ⟨.inr rfl, by simp [goto]⟩
  | rawText e other _ _ => cases e <;> simp [state] at other
  | _ => simp_all

/-- An opening line is come to from its fence, or has been come to before. -/
theorem Yields.to_opening (h : m.Yields dialect before u kind error rest m')
    (hreturn : m.ReturnsOutside) (state : m'.state = .fenceInfo) :
    kind = .codeBlockStart ∨ m.state = .fenceInfo := by
  cases h with
  | codeBlockStart _ _ _ => exact .inl rfl
  | fenceLineSpace state _ | codeBlockAttribute state _ => exact .inr state
  | commentEnd _ _ | mustacheEnd _ _ => exact absurd state hreturn.2.2
  | startTagClose _ _ =>
    rcases TemplateArtifact.bodyState_cases m.lastTag with hbody | hbody | hbody <;>
      simp [goto, hbody] at state
  | rawText e other _ _ => simp [goto] at state
  | _ => simp_all [goto, enter]

/-- A turn does not lead to an opening line. -/
theorem Turns.not_opening (h : m.Turns u m') : m'.state ≠ .fenceInfo := by
  cases h <;> simp [goto]

end Memory

namespace Scanner

variable {s : Scanner}

/-- On the opening line of a block there are words and spaces. -/
theorem scan_on_opening (hrest : s.rest ≠ []) (state : s.memory.state = .fenceInfo) :
    (s.scan.1.kind = .codeBlockAttribute ∨ s.scan.1.kind = .whitespace) ∧
      (s.scan.2.memory.state = .fenceInfo ∨ s.scan.2.memory.state = .fenceBody) := by
  obtain ⟨m, kind, error, rest, m', hturns, hyields, hscan⟩ := scan_before_end hrest
  obtain rfl : m = s.memory := hturns.eq_of_rank (by rw [state]; rfl)
  rw [hscan]
  exact hyields.on_opening state

/-- Behind the opening line there is the body of the block, and its end. -/
theorem scan_behind_opening (hrest : s.rest ≠ []) (state : s.memory.state = .fenceBody) :
    (s.scan.1.kind = .codeBlockContent ∨ s.scan.1.kind = .codeBlockEnd) ∧
      s.scan.2.memory.state ≠ .fenceInfo := by
  obtain ⟨m, kind, error, rest, m', hturns, hyields, hscan⟩ := scan_before_end hrest
  obtain rfl : m = s.memory := hturns.eq_of_rank (by rw [state]; rfl)
  rw [hscan]
  exact hyields.behind_opening state

/-- A fence leads to an opening line. -/
theorem state_of_fence (hrest : s.rest ≠ []) (hkind : s.scan.1.kind = .codeBlockStart) :
    s.scan.2.memory.state = .fenceInfo := by
  obtain ⟨m, kind, error, rest, m', _, hyields, hscan⟩ := scan_before_end hrest
  rw [hscan] at hkind ⊢
  obtain rfl : kind = .codeBlockStart := hkind
  exact hyields.of_codeBlockStart

/-- Words stand on opening lines. -/
theorem state_of_word (hrest : s.rest ≠ []) (hkind : s.scan.1.kind = .codeBlockAttribute) :
    s.memory.state = .fenceInfo := by
  obtain ⟨m, kind, error, rest, m', hturns, hyields, hscan⟩ := scan_before_end hrest
  rw [hscan] at hkind
  obtain rfl : kind = .codeBlockAttribute := hkind
  by_contra hstate
  exact hturns.keeps (P := fun m => m.state ≠ .fenceInfo) (fun _ _ _ hturn => hturn.not_opening)
    hstate hyields.of_word

end Scanner

namespace NodeData

/-- What is known of a block from its opening line: the language and the attributes. -/
def opening? : NodeData → Option (Option Text × List (Text × Option Text))
  | .codeBlock block => some (block.lang, block.attrs)
  | _ => none

theorem opening?_eq_none {data : NodeData} (h : data.kind ≠ .codeBlock) : data.opening? = none := by
  cases data <;> simp_all [opening?, kind]

end NodeData

/-- The language is the first of the words, and the others are the attributes. -/
def openingOf (ws : List Token) : Option Text × List (Text × Option Text) :=
  (ws.head?.map Token.lexeme, ws.tail.map fun w => Draft.splitAttr w.lexeme)

namespace Tree

/-- The opening line of the block: it begins with the fence `o`, and its tokens are `line`. -/
structure OpeningLine (t : Tree) (ts : List Token) (i : Nat) (o : Token)
    (line behind : List Token) : Prop extends Stretch TokenKind.endsOpening ts o line behind where
  fence : o.kind = .codeBlockStart
  start : o.span.start = (t.span i).start
  opening : (t.data i).opening? = some (openingOf (words line))

end Tree

namespace Draft

variable {text : Text} {s : Scanner} {d d' : Draft} {t o : Token} {data : NodeData}
  {block : CodeBlock} {ts line behind ws : List Token} {i : Nat}

/-! ## What is noted of an opening line -/

/-- The open node takes note of something that is no matter to `f`. -/
theorem setCurrent_congr {α : Type} (f : NodeData → α) (h : f data = f d.currentData) (i : Nat) :
    f ((d.setCurrent data).tree.data i) = f (d.tree.data i) := by
  show f ((d.tree.setData d.current data).data i) = _
  rw [Tree.data_setData]
  split
  · next heq => rw [h, ← heq.1]; rfl
  · rfl

/-- **A word** is the language of the block if it is the first, and an attribute if not. -/
theorem opening?_codeBlockAttribute (hcurrent : d.current < d.tree.size)
    (h : d.currentData.opening? = some (openingOf ws)) :
    (d.codeBlockAttribute t).currentData.opening? = some (openingOf (ws ++ [t])) := by
  obtain ⟨block, hdata⟩ : ∃ block, d.currentData = .codeBlock block := by
    cases hdata : d.currentData <;> simp [hdata, NodeData.opening?] at h
    exact ⟨_, rfl⟩
  obtain ⟨hlang, hattrs⟩ : block.lang = ws.head?.map Token.lexeme ∧
      block.attrs = ws.tail.map fun w => splitAttr w.lexeme := by
    rw [hdata] at h
    exact Prod.mk.inj (Option.some.inj h)
  unfold codeBlockAttribute
  rw [hdata]
  dsimp only
  rw [currentData_extend]
  cases ws with
  | nil =>
    rw [hlang, hattrs]
    exact congrArg NodeData.opening? (currentData_setCurrent _ hcurrent)
  | cons w ws =>
    have hfurther : (block.lang.isNone && block.attrs.isEmpty) = false := by rw [hlang]; rfl
    have hset := currentData_setCurrent (.codeBlock { block with
      openerEnd := t.span.stop, attrs := block.attrs ++ [splitAttr t.lexeme] }) hcurrent
    have hopening : some (block.lang, block.attrs ++ [splitAttr t.lexeme])
        = some (openingOf (w :: ws ++ [t])) := by
      rw [hlang, hattrs]
      simp [openingOf]
    rw [hfurther]
    simp only [Bool.false_eq_true, if_false]
    split
    · exact (congrArg NodeData.opening? hset).trans hopening
    · exact (congrArg NodeData.opening? hset).trans hopening

/-- A word is noted in the open node. -/
theorem data_codeBlockAttribute_of_ne (hne : i ≠ d.current) :
    (d.codeBlockAttribute t).tree.data i = d.tree.data i := by
  have hset (data : NodeData) : (d.setCurrent data).tree.data i = d.tree.data i :=
    (Tree.data_setData ..).trans (if_neg fun heq => hne heq.1.symm)
  unfold codeBlockAttribute
  split
  · refine (Tree.data_setSpan ..).trans ?_
    dsimp only
    split
    · exact hset _
    · split
      · exact hset _
      · exact hset _
  · rfl

theorem opening?_codeBlockContent (d : Draft) (t : Token) (i : Nat) :
    ((d.codeBlockContent t).tree.data i).opening? = (d.tree.data i).opening? := by
  unfold codeBlockContent
  refine (congrArg NodeData.opening? (Tree.data_setSpan ..)).trans ?_
  split
  · next hdata => exact setCurrent_congr NodeData.opening? (by rw [hdata]; rfl) i
  · rfl

theorem opening?_codeBlockEnd (d : Draft) (t : Token) (i : Nat) :
    ((d.codeBlockEnd t).tree.data i).opening? = (d.tree.data i).opening? := by
  unfold codeBlockEnd
  split
  · next hdata =>
    refine (congrArg NodeData.opening? (data_close ..)).trans ?_
    split
    · exact setCurrent_congr NodeData.opening? (by rw [hdata]; rfl) i
    · rfl
  · rfl

/-- **What is known from opening lines** changes with words only, and only for the open node. -/
theorem opening?_takeToken (hshape : d.tree.Shape d.current) (hi : i < d.tree.size)
    (hother : t.kind = .codeBlockAttribute → i ≠ d.current) :
    ((d.takeToken t).tree.data i).opening? = (d.tree.data i).opening? := by
  have htouches := touches_build (t := t) hshape
  rw [(RawElement.takeToken_same d t).1]
  by_cases hkind : d.tree.kind i = .codeBlock
  · cases ht : t.kind
    case codeBlockAttribute =>
      simp only [build, ht]
      rw [data_codeBlockAttribute_of_ne (hother ht)]
    case codeBlockContent =>
      simp only [build, ht]
      exact opening?_codeBlockContent d t i
    case codeBlockEnd =>
      simp only [build, ht]
      exact opening?_codeBlockEnd d t i
    -- nothing is noted in blocks by the others
    all_goals
      refine congrArg NodeData.opening? (htouches.data i hi ?_)
      rw [hkind, ht]
      simp [TokenKind.notes]
  · rw [NodeData.opening?_eq_none hkind, NodeData.opening?_eq_none]
    rw [show (_ : NodeData).kind = _ from htouches.kinds i hi]
    exact hkind

/-! ## Opening lines -/

/-- The opening line is still read if, and only if, the block is open and the scanner is on it. -/
structure LineRead (d : Draft) (m : Memory) (ts : List Token) (i : Nat) (o : Token)
    (line after : List Token) : Prop extends Tree.OpeningLine d.tree ts i o line after where
  read : after = [] → i = d.current ∧ (m.state = .fenceInfo ∨ m.state = .fenceBody)
  unread : m.state = .fenceInfo → i = d.current → after = []

/-- Every block has an opening line. -/
def Blocks (d : Draft) (m : Memory) (ts : List Token) : Prop :=
  ∀ i, d.tree.kind i = .codeBlock → ∃ o line behind, d.LineRead m ts i o line behind

/-- Every word stands in the opening line of a block. -/
def WordsHoused (d : Draft) (m : Memory) (ts : List Token) : Prop :=
  Housed (d.LineRead m ts) .codeBlockStart (fun t => t.kind = .codeBlockAttribute) ts

theorem blocks_start (dialect : Dialect) (text : Text) :
    (Draft.start dialect text).Blocks (Scanner.start dialect text).memory [] ∧
      (Draft.start dialect text).WordsHoused (Scanner.start dialect text).memory [] := by
  refine ⟨fun i hkind => ?_, .nil⟩
  have hdata : (Draft.start dialect text).tree.data i = .root := by cases i <;> rfl
  rw [Tree.kind, hdata] at hkind
  simp [NodeData.kind] at hkind

/-- The block that a fence opens is the newest node. -/
theorem current_of_fence (hkind : t.kind = .codeBlockStart) :
    (d.takeToken t).current = d.tree.size := by
  rw [(RawElement.takeToken_same d t).2.1]
  simp only [build, hkind]
  rfl

/-- Words and spaces leave the block open. -/
theorem current_of_opening (hkind : t.kind = .codeBlockAttribute ∨ t.kind = .whitespace) :
    (d.takeToken t).current = d.current := by
  rw [(RawElement.takeToken_same d t).2.1]
  rcases hkind with hkind | hkind <;> simp only [build, hkind]
  unfold codeBlockAttribute
  split
  · dsimp only [extend, grow]
    split
    · rfl
    · split <;> rfl
  · rfl

/-- **Where the scanner is on an opening line** the block has just been opened, or nothing is open
that was not open before. -/
theorem Abreast.current_on_opening (h : d.Abreast text s ts) (hrest : s.rest ≠ [])
    (hnext : s.scan.2.memory.state = .fenceInfo) :
    s.scan.1.kind = .codeBlockStart ∨
      s.memory.state = .fenceInfo ∧ (d.takeToken s.scan.1).current = d.current := by
  obtain ⟨m, kind, error, rest, m', hturns, hyields, hscan⟩ := Scanner.scan_before_end hrest
  have hreturns : m.ReturnsOutside := by
    refine hturns.keeps (P := Memory.ReturnsOutside) (fun _ _ h hturn => ?_) h.sits.laidAt.returns
    unfold Memory.ReturnsOutside
    rw [hturn.returnState]
    exact h
  have hnext' : m'.state = .fenceInfo := by
    rw [hscan] at hnext
    exact hnext
  rcases hyields.to_opening hreturns hnext' with hopen | hstate
  · rw [hscan]
    exact .inl hopen
  · have state : s.memory.state = .fenceInfo := by
      by_contra hnot
      exact hturns.keeps (P := fun m => m.state ≠ .fenceInfo)
        (fun _ _ _ hturn => hturn.not_opening) hnot hstate
    exact .inr ⟨state, current_of_opening (Scanner.scan_on_opening hrest state).1⟩

section OneToken

variable (h : d.Abreast text s ts) (hrest : s.rest ≠ [])
include h hrest

/-- **A new block** begins with its fence, and is open. -/
theorem Abreast.lineRead_new (hnew : d.tree.size ≤ i)
    (hkind : (d.takeToken s.scan.1).tree.kind i = .codeBlock) :
    (d.takeToken s.scan.1).LineRead s.scan.2.memory (ts ++ [s.scan.1]) i s.scan.1 [] [] := by
  have hi : i < (d.takeToken s.scan.1).tree.size :=
    Tree.lt_size_of_structural (by rw [hkind]; rfl)
  have hfence : s.scan.1.kind = .codeBlockStart := by
    have hattached := kind_of_new h.shape hnew hi
    rw [hkind] at hattached
    cases ht : s.scan.1.kind <;> simp [ht, TokenKind.attaches] at hattached
    rfl
  have hretains := retains_takeToken (t := s.scan.1) h.shape (by rw [hfence]; rfl)
  obtain ⟨_, _, hfresh⟩ := hretains.grows.fresh i hnew hi
  obtain ⟨block, hbuild, hnone⟩ : ∃ block : CodeBlock,
      d.build s.scan.1 = d.openNode (.codeBlock block) s.scan.1.span ∧
        (NodeData.codeBlock block).opening? = some (openingOf []) := by
    simp only [build, hfence, codeBlockStart]
    exact ⟨_, rfl, rfl⟩
  have htree : (d.takeToken s.scan.1).tree
      = (d.openNode (.codeBlock block) s.scan.1.span).tree := by
    rw [(RawElement.takeToken_same d s.scan.1).1, hbuild]
  obtain rfl : i = d.tree.size := by
    have hsize : (d.openNode (.codeBlock block) s.scan.1.span).tree.size = d.tree.size + 1 :=
      size_leaf d _ _
    rw [htree] at hi
    omega
  refine ⟨⟨.start _ ts _, hfence, hfresh.start.symm, ?_⟩,
    fun _ => ⟨(current_of_fence hfence).symm, .inl (Scanner.state_of_fence hrest hfence)⟩,
    fun _ _ => rfl⟩
  have hdata : (d.openNode (.codeBlock block) s.scan.1.span).tree.data d.tree.size
      = .codeBlock block :=
    (node_leaf (.codeBlock block) s.scan.1.span h.shape.edge_lt).1
  rw [htree, hdata, hnone]
  rfl

/-- An opening line is read on: the token is one of its words, or no matter. -/
theorem Abreast.lineRead_extend (state : s.memory.state = .fenceInfo)
    (hline : d.LineRead s.memory ts d.current o line []) :
    (d.takeToken s.scan.1).LineRead s.scan.2.memory (ts ++ [s.scan.1]) d.current o
      (line ++ [s.scan.1]) [] := by
  obtain ⟨hkinds, hnext⟩ := Scanner.scan_on_opening hrest state
  have hcurrent := h.shape.edge_lt
  have hstart := hline.start.trans
    ((touches_takeToken (t := s.scan.1) h.shape).starts d.current hcurrent).symm
  have hends : s.scan.1.kind.endsOpening = false := by
    rcases hkinds with ht | ht <;> rw [ht] <;> rfl
  refine ⟨⟨hline.extend hends, hline.fence, hstart, ?_⟩,
    fun _ => ⟨(current_of_opening hkinds).symm, hnext⟩, fun _ _ => rfl⟩
  rw [words, List.filter_append]
  rcases hkinds with ht | ht
  · have hlast : [s.scan.1].filter (fun t => t.kind == .codeBlockAttribute) = [s.scan.1] := by
      simp [ht]
    rw [hlast, (RawElement.takeToken_same d s.scan.1).1]
    simp only [build, ht]
    have hword := opening?_codeBlockAttribute (t := s.scan.1) hcurrent hline.opening
    rwa [currentData, show (d.codeBlockAttribute s.scan.1).current = d.current from ?_] at hword
    have hsame := current_of_opening (d := d) (.inl ht)
    rw [(RawElement.takeToken_same d s.scan.1).2.1] at hsame
    simpa only [build, ht] using hsame
  · have hnone : [s.scan.1].filter (fun t => t.kind == .codeBlockAttribute) = [] := by simp [ht]
    rw [hnone, List.append_nil, opening?_takeToken h.shape hcurrent (by simp [ht])]
    exact hline.opening

/-- Behind its break an opening line ends. -/
theorem Abreast.lineRead_stop (state : s.memory.state = .fenceBody)
    (hline : d.LineRead s.memory ts i o line []) :
    (d.takeToken s.scan.1).LineRead s.scan.2.memory (ts ++ [s.scan.1]) i o line [s.scan.1] := by
  obtain ⟨hkinds, hnot⟩ := Scanner.scan_behind_opening hrest state
  have hi : i < d.tree.size := (hline.read rfl).1 ▸ h.shape.edge_lt
  have hstart := hline.start.trans
    ((touches_takeToken (t := s.scan.1) h.shape).starts i hi).symm
  have hends : s.scan.1.kind.endsOpening = true := by
    rcases hkinds with ht | ht <;> rw [ht] <;> rfl
  refine ⟨⟨hline.stop hends, hline.fence, hstart, ?_⟩, by simp, fun hinfo => absurd hinfo hnot⟩
  rw [opening?_takeToken h.shape hi fun hword => ?_, hline.opening]
  rcases hkinds with ht | ht <;> simp [ht] at hword

/-- An opening line that has ended stays as it is. -/
theorem Abreast.lineRead_append (hi : i < d.tree.size)
    (hline : d.LineRead s.memory ts i o line behind) (hne : behind ≠ []) :
    (d.takeToken s.scan.1).LineRead s.scan.2.memory (ts ++ [s.scan.1]) i o line
      (behind ++ [s.scan.1]) := by
  have hstart := hline.start.trans
    ((touches_takeToken (t := s.scan.1) h.shape).starts i hi).symm
  have hnot (hinfo : s.memory.state = .fenceInfo) : i ≠ d.current := fun heq =>
    hne (hline.unread hinfo heq)
  refine ⟨⟨hline.append hne _, hline.fence, hstart, ?_⟩, by simp, fun hinfo hcurrent => ?_⟩
  · rw [opening?_takeToken h.shape hi fun hword => hnot (Scanner.state_of_word hrest hword),
      hline.opening]
  · rcases h.current_on_opening hrest hinfo with hfence | ⟨state, hsame⟩
    · rw [current_of_fence hfence] at hcurrent
      exact absurd hcurrent (Nat.ne_of_lt hi)
    · exact absurd (hcurrent.trans hsame) (hnot state)

/-- **One token for a block.** It belongs to the opening line, or stands behind it. -/
theorem Abreast.lineRead_scan (hline : d.LineRead s.memory ts i o line behind) :
    ∃ more behind', (d.takeToken s.scan.1).LineRead s.scan.2.memory (ts ++ [s.scan.1]) i o
      (line ++ more) behind' := by
  by_cases hne : behind = []
  · subst hne
    obtain ⟨rfl, state | state⟩ := hline.read rfl
    · exact ⟨_, [], h.lineRead_extend hrest state hline⟩
    · exact ⟨[], _, (List.append_nil line).symm ▸ h.lineRead_stop hrest state hline⟩
  · have hi : i < d.tree.size := by
      refine Nat.lt_of_not_le fun hle => ?_
      have hopening := hline.opening
      rw [Tree.data_of_size_le hle] at hopening
      simp [NodeData.opening?] at hopening
    exact ⟨[], _, (List.append_nil line).symm ▸ h.lineRead_append hrest hi hline hne⟩

/-- **One token.** It belongs to the opening line that is read, or ends it. To other blocks it is no
matter. -/
theorem Abreast.blocks (hblocks : d.Blocks s.memory ts) :
    (d.takeToken s.scan.1).Blocks s.scan.2.memory (ts ++ [s.scan.1]) := by
  intro i hkind
  by_cases hi : i < d.tree.size
  · rw [(touches_takeToken (t := s.scan.1) h.shape).kinds i hi] at hkind
    obtain ⟨o, line, behind, hline⟩ := hblocks i hkind
    obtain ⟨more, behind', hline'⟩ := h.lineRead_scan hrest hline
    exact ⟨o, _, behind', hline'⟩
  · exact ⟨_, [], [], h.lineRead_new hrest (Nat.le_of_not_lt hi) hkind⟩

/-- The opening line in which a word stands. -/
theorem Abreast.lineRead_of_word (hblocks : d.Blocks s.memory ts)
    (hword : s.scan.1.kind = .codeBlockAttribute) :
    ∃ o line, d.LineRead s.memory ts d.current o line [] := by
  have hexpects := h.attuned.expects
  rw [hword] at hexpects
  obtain ⟨o, line, behind, hline⟩ := hblocks d.current hexpects
  obtain rfl := hline.unread (Scanner.state_of_word hrest hword) rfl
  exact ⟨o, line, hline⟩

/-- A word stands in the opening line that is read. -/
theorem Abreast.wordsHoused (hblocks : d.Blocks s.memory ts) (hhoused : d.WordsHoused s.memory ts) :
    (d.takeToken s.scan.1).WordsHoused s.scan.2.memory (ts ++ [s.scan.1]) := by
  refine hhoused.snoc (fun i o line behind hline => h.lineRead_scan hrest hline) fun hword => ?_
  obtain ⟨o, line, hline⟩ := h.lineRead_of_word hrest hblocks hword
  rw [hline.behindLast_eq hline.fence rfl]
  exact ⟨_, o, [], h.lineRead_extend hrest (Scanner.state_of_word hrest hword) hline⟩

end OneToken

section Finish

variable {m : Memory} {tail : List Token}

/-- The end of the text ends the opening lines. -/
theorem LineRead.finish (hline : d.LineRead m ts i o line behind)
    (htail : ∀ c ∈ tail, c.kind = .eos) :
    d.finish.tree.OpeningLine (ts ++ tail) i o line (behind ++ tail) := by
  have htouches := touches_finish d
  have hkind : d.tree.kind i = .codeBlock := by
    have hopening := hline.opening
    cases hdata : d.tree.data i <;> simp [hdata, NodeData.opening?] at hopening
    exact Tree.kind_of_data hdata
  have hi : i < d.tree.size := Tree.lt_size_of_structural (by rw [hkind]; rfl)
  refine ⟨hline.toStretch.finish rfl htail, hline.fence,
    hline.start.trans (htouches.starts i hi).symm, ?_⟩
  rw [htouches.data i hi (by simp [hkind]), hline.opening]

theorem Blocks.finish (hblocks : d.Blocks m ts) (htail : ∀ c ∈ tail, c.kind = .eos)
    (hkind : d.finish.tree.kind i = .codeBlock) :
    ∃ o line behind, d.finish.tree.OpeningLine (ts ++ tail) i o line behind := by
  have htouches := touches_finish d
  have hi : i < d.tree.size := by
    rw [← htouches.size_eq]
    exact Tree.lt_size_of_structural (by rw [hkind]; rfl)
  obtain ⟨o, line, behind, hline⟩ := hblocks i ((htouches.kinds i hi).symm.trans hkind)
  exact ⟨o, line, _, hline.finish htail⟩

theorem WordsHoused.finish (hhoused : d.WordsHoused m ts) (htail : ∀ c ∈ tail, c.kind = .eos) :
    Housed (d.finish.tree.OpeningLine (ts ++ tail)) .codeBlockStart
      (fun t => t.kind = .codeBlockAttribute) (ts ++ tail) := by
  refine hhoused.append (fun i o line behind hline => ⟨_, hline.finish htail⟩) fun c hc hword => ?_
  rw [htail c hc] at hword
  simp at hword

end Finish

end Draft

end HybridMarkup
