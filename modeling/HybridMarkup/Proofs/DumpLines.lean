/-
No line of a dump is broken.

A dump shows texts in quotes, and a quoted text has no line feed. Names are shown as they are
(`NodeData.names`): tags, attributes, what a directive is made of, and the words of an opening line.
So it has to be known of every name that there is no line feed in it. The scanner lets none into the
four tokens that names are made of (`Scanner.line_not_mem_name`), and a draft takes names from these
tokens only (`Draft.Unbroken`), however the rest of it is changed.

Main statement: `Tree.line_not_mem_dumpLine`, for any tree whose names have no line feed, which the
tree of a document is (`Parse.draft_unbroken`).
-/
import HybridMarkup.Proofs.Delimiters
import HybridMarkup.Proofs.GeneratedNames
import HybridMarkup.Tree.Dump

set_option autoImplicit false

namespace HybridMarkup

open Text

/-! ## Lines -/

/-- The names in a node, which its line shows without quotes. -/
def NodeData.names : NodeData → Text
  | .codeBlock b => b.lang.getD [] ++ b.attrs.flatMap fun attr => attr.1 ++ attr.2.getD []
  | .element e => e.tag
  | .attr a => a.name
  | .directive d => d.name ++ d.arg.getD [] ++ d.modifiers.flatten
  | _ => []

theorem Text.line_not_mem_hexDigits (n : Nat) : '\n' ∉ hexDigits n := by
  unfold hexDigits
  induction n using Nat.strongRecOn with
  | ind n ih =>
    have hdigit : ∀ k < 16, '\n' ≠ Nat.digitChar k := by decide
    rw [Nat.toDigits_eq_if (by decide)]
    split
    · next hlt => exact mt List.mem_singleton.1 (hdigit n hlt)
    · next hle =>
      have hlast := hdigit (n % 16) (Nat.mod_lt n (by decide))
      have hfront := ih (n / 16) (by omega)
      simp [hlast, hfront]

theorem Text.line_not_mem_quoted (t : Text) : '\n' ∉ quoted t := by
  have hchar (c : Char) : '\n' ∉ quotedChar c := by
    unfold quotedChar
    repeat' split
    any_goals decide
    -- left are what is written by its number, and what is written as it is
    · simp [line_not_mem_hexDigits]
    · next hline _ _ _ _ => exact mt List.mem_singleton.1 (Ne.symm hline)
  simp [quoted, hchar]

theorem Text.line_not_mem_shownValue (value : Option Text) : '\n' ∉ shownValue value := by
  cases value <;> simp [shownValue, line_not_mem_quoted]

theorem Text.line_not_mem_ofNat (n : Nat) : '\n' ∉ ofNat n :=
  fun h => absurd (isDigit_of_mem_ofNat h) (by decide)

/-- What stands behind kind and span has a line feed only if a name has one. -/
theorem NodeData.line_not_mem_shown {data : NodeData} (h : '\n' ∉ data.names) :
    '\n' ∉ data.shown := by
  cases data with
  | root | paragraph => exact List.not_mem_nil
  | text content | comment content | importStatement content | jsxStatement content
  | rawText content | mustache content _ => simp [shown, line_not_mem_quoted]
  | expressionStatement content _ isInline => cases isInline <;> simp [shown, line_not_mem_quoted]
  | element e => cases hself : e.selfClose <;> simpa [shown, names, hself] using h
  | attr a => simpa [shown, names, line_not_mem_shownValue] using h
  | directive d =>
    cases harg : d.arg <;>
      simpa [shown, names, Directive.shown, Directive.key, harg, line_not_mem_shownValue] using h
  | codeBlock b =>
    simp only [names, List.mem_append, List.mem_flatMap, not_or, not_exists, not_and] at h
    have hlang : '\n' ∉ (b.lang.map (" lang=".toList ++ ·)).getD [] := by
      cases hb : b.lang with
      | none => exact List.not_mem_nil
      | some lang => simpa [hb] using h.1
    have hattr : ∀ attr ∈ b.attrs, '\n' ∉ CodeBlock.shownAttr attr := by
      rintro ⟨key, _ | value⟩ hattr
      · exact (h.2 _ hattr).1
      · simpa [CodeBlock.shownAttr] using h.2 _ hattr
    simp only [shown, List.mem_append, List.mem_flatMap, List.mem_cons, not_or, not_exists, not_and]
    exact ⟨⟨hlang, fun attr hmem => ⟨by decide, hattr attr hmem⟩⟩, by decide, line_not_mem_quoted _⟩

/-- **A line is not broken** if no name is. -/
theorem Tree.line_not_mem_dumpLine {t : Tree} {i : Nat} (h : '\n' ∉ (t.data i).names)
    (depth : Nat) : '\n' ∉ t.dumpLine depth i := by
  have hlabel (kind : NodeKind) : '\n' ∉ kind.label.toList := by cases kind <;> decide
  have hspan (s : Span) : '\n' ∉ s.shown := by simp [Span.shown, line_not_mem_ofNat]
  simp [dumpLine, hlabel, hspan, NodeData.line_not_mem_shown h]

/-! ## The tokens that name -/

/-- The tokens that names are made of. -/
def TokenKind.names : TokenKind → Bool
  | startTag | attributeName | directiveName | codeBlockAttribute => true
  | _ => false

/-- What is passed as the name of an element. -/
theorem passElementName?_eq_some {t rest : Text} (h : passElementName? t = some rest) :
    ∃ part, t = part ++ rest ∧ ∀ c ∈ part, continuesName c = true := by
  unfold passElementName? at h
  split at h
  · contradiction
  · next c t =>
    split at h
    · next hbegins =>
      obtain rfl : t.dropWhile continuesName = rest := by simpa using h
      refine ⟨c :: t.takeWhile continuesName, ?_, fun c' hc' => ?_⟩
      · rw [List.cons_append, List.takeWhile_append_dropWhile]
      · rcases List.mem_cons.1 hc' with rfl | hc'
        · simp [continuesName, hbegins]
        · exact List.mem_takeWhile_imp hc'
    · contradiction

/-- **No name is read across a line feed.** -/
theorem Memory.Yields.line_not_mem {dialect : Dialect} {before : Option Char} {m m' : Memory}
    {u rest : Text} {kind : TokenKind} {error : Option LexError}
    (h : m.Yields dialect before u kind error rest m') (hnames : kind.names = true) :
    '\n' ∉ Text.before u rest := by
  have hpassed {p : Char → Bool} (hp : p '\n' = false)
      (hread : ∃ part, u = part ++ rest ∧ ∀ c ∈ part, p c = true) :
      '\n' ∉ Text.before u rest := by
    obtain ⟨part, hu, hpart⟩ := hread
    rw [hu, before_append]
    intro hline
    rw [hpart _ hline] at hp
    contradiction
  cases h with
  | startTag _ read => exact hpassed (by decide +kernel) (passElementName?_eq_some read)
  | attributeName _ _ read _ | directiveName _ _ read _ =>
    obtain ⟨part, hu, _, hpart⟩ := passWhile?_eq_some read
    exact hpassed (by decide) ⟨part, hu, hpart⟩
  | codeBlockAttribute _ read =>
    obtain ⟨part, hu, _, hpart⟩ := passWhile?_eq_some read
    exact hpassed (p := fun c => !isSpace c) (by decide) ⟨part, hu, hpart⟩
  | _ => simp [TokenKind.names] at hnames

theorem Scanner.line_not_mem_name {dialect : Dialect} {text : Text} {t : Token}
    (ht : t ∈ tokenize dialect text) (hnames : t.kind.names = true) : '\n' ∉ t.lexeme := by
  have heos : t.kind ≠ .eos := by
    rintro heos
    simp [heos, TokenKind.names] at hnames
  obtain ⟨s, m, m', rest, hyields, hlexeme⟩ := exists_yields_of_mem ht heos
  rw [hlexeme]
  exact hyields.line_not_mem hnames

/-! ## The names of a draft -/

/-- The parts of a directive are parts of its name as it was written, but for the names of which
there is a sign. -/
theorem Directive.line_not_mem_names {raw : Text} (h : '\n' ∉ raw) :
    '\n' ∉ (NodeData.directive (Directive.ofRaw raw)).names := by
  have hparts {name rest : Text} (hname : '\n' ∉ name) (hrest : '\n' ∉ rest)
      (hasArg isShorthand : Bool) :
      '\n' ∉ (NodeData.directive (ofParts name rest hasArg isShorthand)).names := by
    have hpart : ∀ part ∈ splitAt '.' rest, '\n' ∉ part :=
      fun part hpart hline => hrest (mem_of_mem_splitAt hpart hline)
    have htail : ∀ part ∈ (splitAt '.' rest).tail, '\n' ∉ part :=
      fun part hmem => hpart part (List.mem_of_mem_tail hmem)
    have hhead : '\n' ∉ (splitAt '.' rest).headD [] := by
      cases hsplit : splitAt '.' rest with
      | nil => exact List.not_mem_nil
      | cons first parts => exact hpart first (hsplit ▸ List.mem_cons_self)
    have harg : '\n' ∉ (if hasArg then some ((splitAt '.' rest).headD []) else none).getD [] := by
      cases hasArg with
      | false => exact List.not_mem_nil
      | true => exact hhead
    simp only [NodeData.names, ofParts, List.mem_append, List.mem_flatten, not_or, not_exists,
      not_and]
    exact ⟨⟨hname, harg⟩, htail⟩
  have hlong {body : Text} (hbody : '\n' ∉ body) :
      '\n' ∉ (NodeData.directive (ofLongForm body)).names := by
    have hname : '\n' ∉ body.takeWhile fun c => c != ':' && c != '.' :=
      fun hline => hbody ((List.takeWhile_sublist _).subset hline)
    have hrest : '\n' ∉ body.dropWhile fun c => c != ':' && c != '.' :=
      fun hline => hbody ((List.dropWhile_sublist _).subset hline)
    unfold ofLongForm
    split
    · next rest heq =>
      rw [heq] at hrest
      exact hparts hname (fun hline => hrest (List.mem_cons_of_mem _ hline)) true false
    · exact hparts hname hrest false false
  unfold ofRaw
  split
  · exact hlong List.not_mem_nil
  · next c rest =>
    split
    · next name hname =>
      have hsign : '\n' ∉ name := by
        unfold ofSign? at hname
        split_ifs at hname <;> (obtain rfl := Option.some.inj hname; decide)
      exact hparts hsign (fun hline => h (List.mem_cons_of_mem c hline)) true true
    · cases hstrip : strip? ['v', '-'] (c :: rest) with
      | none => exact hlong h
      | some body =>
        rw [strip?_eq_some.1 hstrip] at h
        exact hlong fun hline => h (List.mem_append_right _ hline)

/-- The key of a word and its value are parts of the word. -/
theorem Draft.line_not_mem_splitAttr {word : Text} (h : '\n' ∉ word) :
    '\n' ∉ (splitAttr word).1 ++ (splitAttr word).2.getD [] := by
  unfold splitAttr
  split
  · next key value hcut =>
    rw [cutAt?_append hcut] at h
    simpa using h
  · simpa using h

namespace Tree

/-- To attach a node changes nothing of what the nodes stand for. -/
theorem data_attach (t : Tree) (child parent j : Nat) : (t.attach child parent).data j = t.data j := by
  have hmodify {f : Node → Node} (hf : ∀ n, (f n).data = n.data) (t : Tree) (i : Nat) :
      (t.modify i f).data j = t.data j := by
    rw [data, node_modify]
    split
    · exact hf _
    · rfl
  have hrenumber (ids : List NodeId) (t : Tree) (slot : Nat) :
      (t.renumber slot ids).data j = t.data j := by
    induction ids generalizing t slot with
    | nil => rfl
    | cons id ids ih =>
      rw [renumber, ih, hmodify]
      exact fun _ => rfl
  have hdetach : (t.detach child).data j = t.data j := by
    unfold detach
    split
    · rfl
    · dsimp only
      rw [hrenumber, hmodify, hmodify]
      · exact fun _ => rfl
      · exact fun _ => rfl
  unfold attach
  dsimp only
  rw [hmodify, hmodify, hdetach]
  · exact fun _ => rfl
  · exact fun _ => rfl

end Tree

namespace Draft

variable {d : Draft} {data : NodeData} {span : Span} {t : Token}

/-- No name in the tree has a line feed. -/
def Unbroken (d : Draft) : Prop := ∀ i : Nat, '\n' ∉ (d.tree.data i).names

theorem Unbroken.of_tree {d' : Draft} (h : d.Unbroken) (htree : d'.tree = d.tree) : d'.Unbroken := by
  intro i
  rw [htree]
  exact h i

/-! ### Ways of working on a draft -/

theorem Unbroken.setSpan (h : d.Unbroken) (i : Nat) (span : Span) :
    ({ d with tree := d.tree.setSpan i span } : Draft).Unbroken := by
  intro j
  rw [Tree.data_setSpan]
  exact h j

theorem Unbroken.extend (h : d.Unbroken) (stop : Nat) : (d.extend stop).Unbroken :=
  h.setSpan _ _

theorem Unbroken.setData (h : d.Unbroken) (i : Nat) (hdata : '\n' ∉ data.names) :
    (d.setData i data).Unbroken := by
  intro j
  rw [show (d.setData i data).tree = d.tree.setData i data from rfl, Tree.data_setData]
  split
  · exact hdata
  · exact h j

/-- Something is noted in a node that has nothing to do with its names. -/
theorem Unbroken.note {old : NodeData} {i : Nat} (h : d.Unbroken) (hold : d.tree.data i = old)
    (hnames : data.names = old.names) : (d.setData i data).Unbroken := by
  have hline := h i
  rw [hold, ← hnames] at hline
  exact h.setData i hline

theorem Unbroken.leaf (h : d.Unbroken) (hdata : '\n' ∉ data.names) :
    (d.leaf data span).Unbroken := by
  have hattach : ({ d with
      tree := (d.tree.alloc data span).2.attach d.tree.size d.current } : Draft).Unbroken := by
    intro j
    rw [Tree.data_attach, Tree.data, Tree.node_alloc]
    split
    · exact hdata
    · exact h j
  exact hattach.extend span.stop

theorem Unbroken.openNode (h : d.Unbroken) (hdata : '\n' ∉ data.names) :
    (d.openNode data span).Unbroken :=
  (h.leaf hdata).of_tree rfl

theorem Unbroken.ascend (h : d.Unbroken) : d.ascend.Unbroken := by
  unfold Draft.ascend
  split
  · exact h
  · exact h.setSpan _ _

theorem Unbroken.close (h : d.Unbroken) (stop : Nat) : (d.close stop).Unbroken :=
  (h.setSpan _ _).ascend

theorem Unbroken.leaveAttribute (h : d.Unbroken) : d.leaveAttribute.Unbroken := by
  unfold Draft.leaveAttribute
  split
  · exact h.ascend
  · exact h.ascend
  · exact h

theorem Unbroken.setEndTagStart (h : d.Unbroken) (i start : Nat) :
    (d.setEndTagStart i start).Unbroken := by
  unfold Draft.setEndTagStart
  split
  · next hdata => exact h.note hdata rfl
  · exact h

theorem Unbroken.closeUnterminated (h : d.Unbroken) (stop : Nat) :
    (d.closeUnterminated stop).Unbroken := by
  obtain ⟨d', hclose, _, ⟨e, hdata, htree⟩ | ⟨_, htree⟩⟩ := d.exists_closeUnterminated stop
  · have hnoted : (d.setCurrent
        (.element { e with startTagEnd := some (e.startTagEnd.getD stop) })).Unbroken :=
      h.note hdata rfl
    rw [hclose]
    exact (hnoted.of_tree htree).close stop
  · rw [hclose]
    exact (h.of_tree htree).close stop

theorem Unbroken.closeDownTo (target start fuel : Nat) :
    ∀ {d : Draft}, d.Unbroken → (closeDownTo target start fuel d).Unbroken := by
  induction fuel with
  | zero => exact id
  | succ fuel ih =>
    intro d h
    unfold Draft.closeDownTo
    split
    · exact h
    · exact ih ((h.setEndTagStart _ _).closeUnterminated _)

theorem Unbroken.finish (h : d.Unbroken) : d.finish.Unbroken := by
  have hfinish (stop fuel : Nat) : ∀ {d : Draft}, d.Unbroken → (finishIn fuel stop d).Unbroken := by
    induction fuel with
    | zero => exact id
    | succ fuel ih =>
      intro d h
      have hsupply : (d.supplyEndTagStart stop).Unbroken := by
        unfold supplyEndTagStart
        split
        · next hdata => exact h.note hdata rfl
        · exact h
      unfold finishIn
      split
      · exact h
      · exact ih (hsupply.closeUnterminated stop)
  exact hfinish _ _ h

/-! ### Rules -/

theorem Unbroken.attributeName (h : d.Unbroken) (hdata : '\n' ∉ data.names) :
    (d.attributeName t data).Unbroken := by
  have hopen : (d.leaveAttribute.openNode data t.span).Unbroken := h.leaveAttribute.openNode hdata
  unfold Draft.attributeName
  dsimp only
  split
  · exact hopen.of_tree rfl
  · exact hopen

theorem Unbroken.attributeValue (h : d.Unbroken) (span : Span) :
    (d.attributeValue span).Unbroken := by
  unfold Draft.attributeValue
  dsimp only
  split
  · next hdata =>
    refine Unbroken.extend ?_ _
    exact h.note hdata rfl
  · next hdata =>
    refine Unbroken.extend ?_ _
    exact h.note hdata rfl
  · exact h

theorem Unbroken.codeBlockAttribute (h : d.Unbroken) (ht : '\n' ∉ t.lexeme) :
    (d.codeBlockAttribute t).Unbroken := by
  unfold Draft.codeBlockAttribute
  split
  · next block hdata =>
    have hblock := h d.current
    rw [show d.tree.data d.current = _ from hdata] at hblock
    simp only [NodeData.names, List.mem_append, not_or] at hblock
    have hlang : '\n' ∉ (NodeData.codeBlock
        { block with openerEnd := t.span.stop, lang := some t.lexeme }).names := by
      simpa [NodeData.names] using ⟨ht, by simpa using hblock.2⟩
    have hattr : '\n' ∉ (NodeData.codeBlock
        { block with
          openerEnd := t.span.stop, attrs := block.attrs ++ [splitAttr t.lexeme] }).names := by
      have hword := line_not_mem_splitAttr ht
      simp only [NodeData.names, List.flatMap_append, List.flatMap_singleton, List.mem_append,
        not_or] at hblock hword ⊢
      exact ⟨hblock.1, hblock.2, hword⟩
    refine Unbroken.extend ?_ _
    dsimp only
    split
    · exact h.setData _ hlang
    · split
      · exact (h.setData _ hattr).of_tree rfl
      · exact h.setData _ hattr
  · exact h

/-- **A token breaks no name**, if it makes none or is on one line. -/
theorem Unbroken.build (h : d.Unbroken) (ht : t.kind.names = true → '\n' ∉ t.lexeme) :
    (d.build t).Unbroken := by
  cases hkind : t.kind <;> simp only [Draft.build, hkind]
  case whitespace | unknown | eos => exact h
  case endTag => exact h.of_tree rfl
  case commentStart | mustacheStart => exact h.openNode List.not_mem_nil
  case codeBlockStart => exact h.openNode List.not_mem_nil
  case importStatement | jsxExpression | rawText => exact h.leaf List.not_mem_nil
  case blockExpression =>
    unfold Draft.blockExpression
    dsimp only
    split
    · exact h.leaf List.not_mem_nil
    · exact h.leaf List.not_mem_nil
  case text =>
    split
    · unfold Draft.templateText
      split
      · exact h
      · exact h.leaf List.not_mem_nil
    · unfold Draft.proseText
      dsimp only
      split
      · exact h.leaf List.not_mem_nil
      · exact (h.openNode List.not_mem_nil).leaf List.not_mem_nil
  case commentContent =>
    refine Unbroken.extend ?_ _
    split
    · next hdata => exact h.note hdata rfl
    · exact h
  case commentEnd =>
    split
    · exact h.close _
    · exact h
  case paragraphEnd =>
    unfold Draft.paragraphEnd
    split
    · exact h.close _
    · exact h
  case codeBlockAttribute => exact h.codeBlockAttribute (ht (by rw [hkind]; rfl))
  case codeBlockContent =>
    refine Unbroken.extend ?_ _
    split
    · next hdata => exact h.note hdata rfl
    · exact h
  case codeBlockEnd =>
    unfold Draft.codeBlockEnd
    split
    · next hdata =>
      refine Unbroken.close ?_ _
      split
      · exact h.note hdata rfl
      · exact h
    · exact h
  case startTagOpen => exact h.leaveAttribute.openNode List.not_mem_nil
  case startTag =>
    refine Unbroken.extend ?_ _
    split
    · exact h.setData _ (ht (by rw [hkind]; rfl))
    · exact h
  case startTagClose =>
    unfold Draft.startTagClose
    dsimp only
    split
    · next hdata =>
      split
      · refine Unbroken.close ?_ _
        exact h.leaveAttribute.note hdata rfl
      · refine Unbroken.extend ?_ _
        exact h.leaveAttribute.note hdata rfl
    · exact h.leaveAttribute.extend _
  case startTagSelfClose =>
    unfold Draft.startTagSelfClose
    dsimp only
    split
    · next hdata =>
      refine Unbroken.close ?_ _
      exact h.leaveAttribute.note hdata rfl
    · exact h.leaveAttribute
  case endTagOpen => exact h.leaveAttribute.of_tree rfl
  case endTagClose =>
    unfold Draft.endTagClose
    split
    · exact h
    · have hnext : Unbroken { d with endTagName := none } := h.of_tree rfl
      dsimp only
      split
      · exact hnext.of_tree rfl
      · exact ((hnext.closeDownTo _ _ _).setEndTagStart _ _).close _
  case attributeName => exact h.attributeName (ht (by rw [hkind]; rfl))
  case directiveName =>
    exact h.attributeName (Directive.line_not_mem_names (ht (by rw [hkind]; rfl)))
  case attributeDelimiter | attributeMark => exact h.extend _
  case attributeValue => exact h.attributeValue _
  case mustacheContent =>
    refine Unbroken.extend ?_ _
    split
    · next hdata => exact h.note hdata rfl
    · exact h
  case mustacheEnd =>
    unfold Draft.mustacheEnd
    split
    · exact (h.close _).attributeValue _
    · exact h

end Draft

/-- **No name in the tree of a document has a line feed.** -/
theorem Parse.draft_unbroken (dialect : Dialect) (text : Text) :
    (draft dialect text).Unbroken := by
  have hstart : (Draft.start dialect text).Unbroken := by
    intro i
    have hdata : (Draft.start dialect text).tree.data i = .root := by
      by_cases hi : i = Tree.root
      · rw [hi]
        rfl
      · rw [Tree.data_of_size_le (Nat.one_le_iff_ne_zero.2 hi)]
    rw [hdata]
    exact List.not_mem_nil
  have htokens : ((tokenize dialect text).foldl Draft.takeToken (.start dialect text)).Unbroken := by
    refine List.foldlRecOn _ _ hstart fun d h t ht => ?_
    have hbuild := h.build fun hnames => Scanner.line_not_mem_name ht hnames
    unfold Draft.takeToken
    split
    · exact hbuild.of_tree rfl
    · exact hbuild
  exact htokens.finish

end HybridMarkup
