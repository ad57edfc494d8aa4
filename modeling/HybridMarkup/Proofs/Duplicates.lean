/-
What is named twice.

A name that an element has already, a directive with a key that it has already, and a word with a
key that another word of its opening line has already are kept, and each of them is warned about.
Which tokens these are is said of the tokens alone (`Token.repeats?`): a name is compared with those
behind the last bracket that opens a start tag, and a word with those behind the last fence. The
reports that follow from it are `repetitions`, one for each of these tokens, at its own place.

The tree is searched for a repetition, and not the tokens; but the attributes of an element are those
that its start tag names, and the words of a block are those of its opening line. Two of these
reports never become one, since two names and two words do not touch (`Parted`).

Main statement: `Parse.duplicates_kept_and_reported`.
-/
import HybridMarkup.Proofs.OpeningWords
import HybridMarkup.Proofs.Reported

set_option autoImplicit false

namespace HybridMarkup

open Text

/-! ## Repetitions -/

/-- Whether the report is that something is named twice. -/
def Diagnostic.isDuplicate (x : Diagnostic) : Bool :=
  x.name == ParseError.attributeDuplicate.name || x.name == ParseError.commandDuplicate.name

theorem Diagnostic.byName_isDuplicate : ByName isDuplicate := by
  intro x y h
  rw [isDuplicate, isDuplicate, h]

namespace Token

/-- The tokens that may repeat another one. -/
def isName (t : Token) : Bool :=
  t.kind == .attributeName || t.kind == .directiveName || t.kind == .codeBlockAttribute

/-- What the token repeats of the tokens `before` it: the name of an attribute or the key of a
directive in the same start tag, or the key of a word in the same opening line, in which the first
word has none. -/
def repeats? (before : List Token) (t : Token) : Option ParseError :=
  match t.kind with
  | .attributeName =>
    if (behindLast .startTagOpen before).any fun u =>
        u.kind == .attributeName && u.lexeme == t.lexeme then some .attributeDuplicate else none
  | .directiveName =>
    if (behindLast .startTagOpen before).any fun u =>
        u.kind == .directiveName && (Directive.ofRaw u.lexeme).key == (Directive.ofRaw t.lexeme).key
    then some .commandDuplicate else none
  | .codeBlockAttribute =>
    if (words (behindLast .codeBlockStart before)).tail.any fun w =>
        (Draft.splitAttr w.lexeme).1 == (Draft.splitAttr t.lexeme).1
    then some .attributeDuplicate else none
  | _ => none

/-- The report of the token, if it repeats something. -/
def repetition (before : List Token) (t : Token) : List Diagnostic :=
  ((t.repeats? before).map fun error => error.entry t.span).toList

end Token

/-- The reports of the tokens `ts` that repeat something, where `before` has been read. -/
def repetitionsFrom (before : List Token) : List Token → List Diagnostic
  | [] => []
  | t :: ts => t.repetition before ++ repetitionsFrom (before ++ [t]) ts

/-- The reports of all tokens that repeat something. -/
def repetitions (ts : List Token) : List Diagnostic := repetitionsFrom [] ts

section Repetitions

variable {ends : TokenKind → Bool} {kind : TokenKind} {ts tail inside before : List Token}
  {o t : Token}

theorem Token.repetition_eq_nil (h : t.isName = false) : t.repetition before = [] := by
  have hnone : t.repeats? before = none := by
    unfold repeats?
    split <;> simp_all [isName]
  rw [repetition, hnone]
  rfl

theorem Token.repeats?_cases {error : ParseError} (h : t.repeats? before = some error) :
    error = .attributeDuplicate ∨ error = .commandDuplicate := by
  unfold repeats? at h
  split at h <;> simp_all

theorem repetitionsFrom_append (ts tail : List Token) : ∀ before,
    repetitionsFrom before (ts ++ tail)
      = repetitionsFrom before ts ++ repetitionsFrom (before ++ ts) tail := by
  induction ts with
  | nil => intro before; simp [repetitionsFrom]
  | cons t ts ih => intro before; simp [repetitionsFrom, ih]

/-- **One more token** is one more report, if it repeats something. -/
theorem repetitions_snoc (ts : List Token) (t : Token) :
    repetitions (ts ++ [t]) = repetitions ts ++ t.repetition ts := by
  simp [repetitions, repetitionsFrom_append, repetitionsFrom]

/-- The tokens that are no names repeat nothing. -/
theorem repetitions_append_of_other (htail : ∀ c ∈ tail, c.isName = false) :
    repetitions (ts ++ tail) = repetitions ts := by
  induction tail using List.reverseRecOn with
  | nil => rw [List.append_nil]
  | append_singleton tail t ih =>
    rw [← List.append_assoc, repetitions_snoc, ih fun c hc => htail c (by simp [hc]),
      Token.repetition_eq_nil (htail t (by simp)), List.append_nil]

/-- A report is at the place of the name that repeats something. -/
theorem exists_of_mem_repetitions {x : Diagnostic} (hx : x ∈ repetitions ts) :
    ∃ c ∈ ts, c.isName = true ∧ x.span = c.span := by
  induction ts using List.reverseRecOn with
  | nil => simp [repetitions, repetitionsFrom] at hx
  | append_singleton ts t ih =>
    rw [repetitions_snoc, List.mem_append] at hx
    rcases hx with hx | hx
    · obtain ⟨c, hc, hname, hspan⟩ := ih hx
      exact ⟨c, List.mem_append_left _ hc, hname, hspan⟩
    · refine ⟨t, by simp, ?_, ?_⟩
      · by_contra hother
        rw [Token.repetition_eq_nil (Bool.eq_false_iff.2 hother)] at hx
        simp at hx
      · obtain ⟨error, _, rfl⟩ := Option.map_eq_some_iff.1 (Option.mem_toList.1 hx)
        rfl

end Repetitions

/-! ## Where names end -/

/-- The characters with which a name goes on, or in prose a word. -/
def inName (dialect : Dialect) (c : Char) : Bool :=
  if dialect = .template then inAttributeName c else !isSpace c

/-- Behind what has been passed there is nothing more to pass. -/
theorem Text.passWhile?_passed {p : Char → Bool} {t rest : Text}
    (h : passWhile? p t = some rest) : passWhile? p rest = none := by
  have hstop := List.head?_dropWhile_not p t
  cases t with
  | nil => simp [passWhile?] at h
  | cons c u =>
    by_cases hc : p c = true
    · obtain rfl : u.dropWhile p = rest := by simpa [passWhile?, hc] using h
      rw [List.dropWhile_cons_of_pos hc] at hstop
      cases hrest : u.dropWhile p with
      | nil => rfl
      | cons c' u' =>
        rw [hrest] at hstop
        simpa [passWhile?] using hstop
    · simp [passWhile?, hc] at h

namespace Draft

variable {text : Text} {s : Scanner} {d : Draft} {t : Token} {ts tag : List Token} {i : Nat}
  {data : NodeData} {before : List Token} {a : NodeData × Nat}

/-- There are opening lines in prose only. -/
theorem Abreast.prose_of_opening (h : d.Abreast text s ts) (state : s.memory.state = .fenceInfo) :
    s.dialect ≠ .template := by
  rcases h.attuned with ⟨prose, _⟩ | ⟨r, _, hfollows, _⟩
  · exact prose
  · have hnever := hfollows.synced
    simp only [TemplateArtifact.Synced, state] at hnever

/-- **A name takes all characters that it can go on with.** -/
theorem Abreast.passes_name (h : d.Abreast text s ts) (hrest : s.rest ≠ [])
    (hname : s.scan.1.isName = true) :
    passWhile? (inName s.dialect) s.rest = some s.scan.2.rest := by
  have htemplate (hkind : s.scan.1.kind = .attributeName ∨ s.scan.1.kind = .directiveName) :
      inName s.dialect = inAttributeName := by
    have hdialect : s.dialect = .template :=
      h.template hrest (by rcases hkind with hkind | hkind <;> rw [hkind] <;> rfl)
    funext c
    rw [inName, if_pos hdialect]
  have hword (hkind : s.scan.1.kind = .codeBlockAttribute) :
      inName s.dialect = fun c => !isSpace c := by
    have hdialect := h.prose_of_opening (Scanner.state_of_word hrest hkind)
    funext c
    rw [inName, if_neg hdialect]
  obtain ⟨m, kind, error, rest, m', _, hyields, hscan⟩ := Scanner.scan_before_end hrest
  rw [hscan] at hname htemplate hword ⊢
  cases hyields with
  | attributeName _ _ read _ => rw [htemplate (.inl rfl)]; exact read
  | directiveName _ _ read _ => rw [htemplate (.inr rfl)]; exact read
  | codeBlockAttribute _ read => rw [hword rfl]; exact read
  | _ => simp [Token.isName, Scanner.take] at hname

/-- Where a name has ended the scanner has gone on, or no other name can begin. -/
def Parted (s : Scanner) (ts : List Token) : Prop :=
  ∀ c ∈ ts, c.isName = true →
    c.span.stop < s.offset ∨ passWhile? (inName s.dialect) s.rest = none

theorem Abreast.parted (h : d.Abreast text s ts) (hrest : s.rest ≠ []) (hparted : Parted s ts) :
    Parted s.scan.2 (ts ++ [s.scan.1]) := by
  obtain ⟨hspan, hoffset⟩ := s.scan_span
  intro c hc hname
  rcases List.mem_append.1 hc with hc | hc
  · by_cases hempty : s.scan.1.lexeme = []
    · -- the scanner has not moved
      have hsame : s.scan.2.rest = s.rest := by rw [s.scan_reads, hempty, List.nil_append]
      have hstays : s.scan.2.offset = s.offset := by rw [hoffset, hempty]; rfl
      rw [s.scan_dialect, hsame, hstays]
      exact hparted c hc hname
    · have hpos := size_pos hempty
      have hle := h.read c hc
      exact .inl (by omega)
  · obtain rfl := List.mem_singleton.1 hc
    rw [s.scan_dialect]
    exact .inr (passWhile?_passed (h.passes_name hrest hname))

/-- No report begins where another one ends. -/
theorem Abreast.apart (h : d.Abreast text s ts) (hrest : s.rest ≠ []) (hparted : Parted s ts)
    (hname : s.scan.1.isName = true) :
    ∀ y ∈ repetitions ts, y.span.stop ≠ s.scan.1.span.start := by
  obtain ⟨hspan, _⟩ := s.scan_span
  intro y hy
  obtain ⟨c, hc, hcname, hyspan⟩ := exists_of_mem_repetitions hy
  rw [hyspan, hspan]
  rcases hparted c hc hcname with hlt | hnone
  · exact Nat.ne_of_lt hlt
  · rw [h.passes_name hrest hname] at hnone
    simp at hnone

/-! ## What is reported -/

/-- What makes an attribute a duplicate is the name. -/
theorem duplicateOf?_eq_bind (sibling data : NodeData) :
    duplicateOf? sibling data = sibling.attribute?.bind fun a => duplicateOf? a data := by
  cases sibling <;> cases data <;> rfl

/-- **An attribute is looked for among the attributes** of the node to which they lead back. -/
theorem diagnostics_attributeName (hshape : d.tree.Shape d.current) (t : Token) (data : NodeData) :
    (d.attributeName t data).diagnostics = d.diagnostics.extend
      ((((d.tree.attributes d.leaveAttribute.current).findSome? fun a =>
        duplicateOf? a.1 data).map fun error => error.entry t.span).toList) := by
  have hleave : d.Touches [] [] d.leaveAttribute := touches_leaveAttribute d
  have hsearch : (d.leaveAttribute.tree.children d.leaveAttribute.current).findSome?
        (fun sibling => duplicateOf? (d.leaveAttribute.tree.data sibling) data)
      = (d.tree.attributes d.leaveAttribute.current).findSome? fun a => duplicateOf? a.1 data := by
    rw [← hleave.attributes_eq (by simp) (by simp) hshape (shape_leaveAttribute hshape),
      Tree.attributes, ← List.head?_filterMap, ← List.head?_filterMap, List.filterMap_filterMap]
    refine congrArg List.head? (List.filterMap_congr fun c _ => ?_)
    rw [duplicateOf?_eq_bind]
    cases (d.leaveAttribute.tree.data c).attribute? <;> rfl
  unfold Draft.attributeName
  dsimp only
  rw [hsearch]
  split
  · next error herror =>
    rw [herror]
    show (d.leaveAttribute.diagnostics.push _) = _
    rw [diagnostics_leaveAttribute]
    rfl
  · next hnone =>
    rw [hnone]
    exact d.diagnostics_leaveAttribute

/-- The first answer, where there is only one. -/
theorem findSome?_ite {α β : Type} (p : α → Bool) (b : β) (l : List α) :
    (l.findSome? fun x => if p x = true then some b else none)
      = if l.any p = true then some b else none := by
  induction l with
  | nil => rfl
  | cons x l ih => by_cases hx : p x = true <;> simp [hx, ih]

/-- What a name repeats is found among the attributes that its start tag names. -/
theorem repeats?_of_attribute (ha : t.attribute? = some a)
    (htag : behindLast .startTagOpen ts = tag) :
    t.repeats? ts = (tag.filterMap Token.attribute?).findSome? fun b => duplicateOf? b.1 a.1 := by
  have hsearch (p : Token → Bool) (error : ParseError)
      (hp : ∀ u : Token, (u.attribute?.bind fun b => duplicateOf? b.1 a.1)
        = if p u = true then some error else none) :
      (tag.filterMap Token.attribute?).findSome? (fun b => duplicateOf? b.1 a.1)
        = if tag.any p = true then some error else none := by
    rw [← findSome?_ite, ← List.head?_filterMap, ← List.head?_filterMap, List.filterMap_filterMap]
    exact congrArg List.head? (List.filterMap_congr fun u _ => hp u)
  unfold Token.repeats?
  unfold Token.attribute? at ha
  rw [htag]
  split at ha
  · next hkind =>
    obtain rfl := Option.some.inj ha
    rw [hkind]
    refine (hsearch _ _ fun u => ?_).symm
    cases hu : u.kind <;> simp [Token.attribute?, hu, duplicateOf?]
  · next hkind =>
    obtain rfl := Option.some.inj ha
    rw [hkind]
    refine (hsearch _ _ fun u => ?_).symm
    cases hu : u.kind <;> simp [Token.attribute?, hu, duplicateOf?]
  · simp at ha

/-- **A word is looked for among the further words** of its opening line. -/
theorem diagnostics_codeBlockAttribute {line : List Token} (hkind : t.kind = .codeBlockAttribute)
    (hline : behindLast .codeBlockStart ts = line)
    (hopening : d.currentData.opening? = some (openingOf (words line))) :
    (d.codeBlockAttribute t).diagnostics = d.diagnostics.extend (t.repetition ts) := by
  obtain ⟨block, hdata⟩ : ∃ block, d.currentData = .codeBlock block := by
    cases hdata : d.currentData <;> simp [hdata, NodeData.opening?] at hopening
    exact ⟨_, rfl⟩
  obtain ⟨hlang, hattrs⟩ : block.lang = (words line).head?.map Token.lexeme ∧
      block.attrs = (words line).tail.map fun w => splitAttr w.lexeme := by
    rw [hdata] at hopening
    exact Prod.mk.inj (Option.some.inj hopening)
  have hany : (block.attrs.any fun other => other.1 == (splitAttr t.lexeme).1)
      = (words line).tail.any fun w => (splitAttr w.lexeme).1 == (splitAttr t.lexeme).1 := by
    rw [hattrs, List.any_map]
    rfl
  unfold codeBlockAttribute Token.repetition Token.repeats?
  rw [hdata, hkind, hline]
  dsimp only
  rw [hany]
  split
  · next hfirst =>
    -- the first word is the language, and there are no further ones
    have hnone : words line = [] := by
      cases hwords : words line with
      | nil => rfl
      | cons w ws => simp [hlang, hwords] at hfirst
    rw [hnone]
    rfl
  · split
    · rfl
    · rfl

/-- **A name in a start tag reports that it repeats one**, if it does. -/
theorem Abreast.diagnostics_of_attribute (h : d.Abreast text s ts) (hrest : s.rest ≠ [])
    (hmarks : d.Landmarked ts (d.reach s)) (hlisted : d.Listed ts)
    (ha : s.scan.1.attribute? = some a) :
    (d.build s.scan.1).diagnostics = d.diagnostics.extend (s.scan.1.repetition ts) := by
  obtain ⟨o, tag, htag⟩ := h.tagRead_of_name hrest hmarks hlisted (by simp [ha])
  rw [build_of_attribute ha, diagnostics_attributeName h.shape, htag.attributes, Token.repetition,
    repeats?_of_attribute ha (htag.behindLast_eq htag.bracket rfl)]

/-- **A word reports that it repeats one**, if it does. -/
theorem Abreast.diagnostics_of_word (h : d.Abreast text s ts) (hrest : s.rest ≠ [])
    (hblocks : d.Blocks s.memory ts) (hword : s.scan.1.kind = .codeBlockAttribute) :
    (d.build s.scan.1).diagnostics = d.diagnostics.extend (s.scan.1.repetition ts) := by
  obtain ⟨o, line, hline⟩ := h.lineRead_of_word hrest hblocks hword
  simp only [build, hword]
  exact diagnostics_codeBlockAttribute hword (hline.behindLast_eq hline.fence rfl) hline.opening

/-- **A name reports that it repeats something**, if it does, and nothing else. -/
theorem Abreast.diagnostics_of_name (h : d.Abreast text s ts) (hrest : s.rest ≠ [])
    (hmarks : d.Landmarked ts (d.reach s)) (hlisted : d.Listed ts) (hblocks : d.Blocks s.memory ts)
    (hname : s.scan.1.isName = true) :
    (d.build s.scan.1).diagnostics = d.diagnostics.extend (s.scan.1.repetition ts) := by
  by_cases hword : s.scan.1.kind = .codeBlockAttribute
  · exact h.diagnostics_of_word hrest hblocks hword
  · cases ha : s.scan.1.attribute? with
    | some a => exact h.diagnostics_of_attribute hrest hmarks hlisted ha
    | none =>
      cases hkind : s.scan.1.kind <;> simp [Token.isName, Token.attribute?, hkind] at hname hword ha

/-- The fault that a token has itself is no repetition. -/
theorem duplicates_takeToken (d : Draft) (t : Token) :
    (d.takeToken t).diagnostics.entries.filter Diagnostic.isDuplicate
      = (d.build t).diagnostics.entries.filter Diagnostic.isDuplicate := by
  unfold takeToken
  split
  · next error _ =>
    refine Diagnostics.filter_push_other Diagnostic.byName_isDuplicate ?_
    cases error <;> rfl
  · rfl

/-- What is known of the names when some of the tokens have been taken in. -/
structure NamesKept (s : Scanner) (d : Draft) (ts : List Token) : Prop where
  landmarked : d.Landmarked ts (d.reach s)
  behindTags : d.BehindTags
  listed : d.Listed ts
  namesHoused : d.NamesHoused ts
  blocks : d.Blocks s.memory ts
  wordsHoused : d.WordsHoused s.memory ts
  parted : Parted s ts
  reported : d.diagnostics.entries.filter Diagnostic.isDuplicate = repetitions ts

/-- There is one more report if the token repeats something, and none if not. -/
theorem Abreast.reported (h : d.Abreast text s ts) (hrest : s.rest ≠ []) (hkept : NamesKept s d ts) :
    (d.takeToken s.scan.1).diagnostics.entries.filter Diagnostic.isDuplicate
      = repetitions (ts ++ [s.scan.1]) := by
  rw [duplicates_takeToken, repetitions_snoc, ← hkept.reported]
  by_cases hname : s.scan.1.isName = true
  · rw [h.diagnostics_of_name hrest hkept.landmarked hkept.listed hkept.blocks hname]
    have hapart := h.apart hrest hkept.parted hname
    rw [← hkept.reported] at hapart
    unfold Token.repetition
    cases hrepeats : s.scan.1.repeats? ts with
    | none => exact (List.append_nil _).symm
    | some error =>
      refine Diagnostics.filter_push Diagnostic.byName_isDuplicate ?_ hapart
      rcases Token.repeats?_cases hrepeats with rfl | rfl <;> rfl
  · have hother := Bool.eq_false_iff.2 hname
    rw [Token.repetition_eq_nil hother, List.append_nil]
    refine (reports_build d s.scan.1).filter_eq Diagnostic.byName_isDuplicate
      fun error herror span => ?_
    cases hkind : s.scan.1.kind <;> simp [hkind, TokenKind.reports, Token.isName] at herror hother
    rcases herror with rfl | rfl | rfl <;> rfl

/-- **One token.** -/
theorem Abreast.namesKept (h : d.Abreast text s ts) (hrest : s.rest ≠ [])
    (hkept : NamesKept s d ts) :
    NamesKept s.scan.2 (d.takeToken s.scan.1) (ts ++ [s.scan.1]) := by
  obtain ⟨hmarks, hbehind⟩ := (h.effect hrest).landmarked hkept.landmarked hkept.behindTags h.laid
    (h.reach_mono hrest)
  exact ⟨hmarks, hbehind, h.listed hrest hkept.landmarked hkept.listed,
    h.namesHoused hrest hkept.landmarked hkept.listed hkept.namesHoused,
    h.blocks hrest hkept.blocks, h.wordsHoused hrest hkept.blocks hkept.wordsHoused,
    h.parted hrest hkept.parted, h.reported hrest hkept⟩

theorem namesKept_start (dialect : Dialect) (text : Text) :
    NamesKept (Scanner.start dialect text) (Draft.start dialect text) [] := by
  obtain ⟨hmarks, hbehind⟩ := landmarked_start dialect text
  obtain ⟨hlisted, hnames⟩ := listed_start dialect text
  obtain ⟨hblocks, hwords⟩ := blocks_start dialect text
  exact ⟨hmarks, hbehind, hlisted, hnames, hblocks, hwords, fun c hc => by simp at hc, rfl⟩

end Draft

/-- **What is named twice is kept, and reported once.** In every dialect and for every text, the
attributes and directives of an element are those that its start tag names, one for each name and in
their order; the words of an opening line are the language and the attributes of its block, in their
order. Every name stands in the start tag of an element, and every word in the opening line of a
block, with what stands in front of it there. And the reports of duplicates are one for each token
that repeats what an earlier one in the same start tag, or in the same opening line, has named, at
the place of that token. -/
theorem Parse.duplicates_kept_and_reported (options : ParseOptions) (text : Text) :
    let p := ofText options text
    let ts := tokenize options.dialect text
    (∀ i, p.tree.kind i = .element → ∃ o tag behind, p.tree.StartTag ts i o tag behind) ∧
    Housed (p.tree.StartTag ts) .startTagOpen (fun t => t.attribute? ≠ none) ts ∧
    (∀ i, p.tree.kind i = .codeBlock → ∃ o line behind, p.tree.OpeningLine ts i o line behind) ∧
    Housed (p.tree.OpeningLine ts) .codeBlockStart (fun t => t.kind = .codeBlockAttribute) ts ∧
    p.diagnostics.filter Diagnostic.isDuplicate = repetitions ts := by
  intro p ts
  obtain ⟨d, s, read, tail, hfinish, h, hkept, htokens, htail⟩ := Draft.exists_scanned
    options.dialect text (Draft.namesKept_start options.dialect text)
    fun h hrest hkept => h.namesKept hrest hkept
  have hshape := h.shape
  have hshape' : d.finish.tree.Shape d.finish.current :=
    hfinish ▸ (draft_laid options.dialect text).1.shape
  have htree : p.tree = d.finish.tree := by rw [hfinish]; rfl
  have hts : ts = read ++ tail := htokens
  rw [htree, hts]
  refine ⟨fun i hi => hkept.listed.finish hshape hshape' htail hi,
    hkept.namesHoused.finish hshape hshape' htail, fun i hi => hkept.blocks.finish htail hi,
    hkept.wordsHoused.finish htail, ?_⟩
  have hlint : (options.lint.lint d.finish.tree).filter Diagnostic.isDuplicate = [] :=
    options.lint.filter_lint Diagnostic.byName_isDuplicate (by decide) _
  have hend : d.finish.diagnostics.entries.filter Diagnostic.isDuplicate
      = d.diagnostics.entries.filter Diagnostic.isDuplicate := by
    refine (Draft.reports_finish d).filter_eq Diagnostic.byName_isDuplicate fun error herror _ => ?_
    simp only [List.mem_cons, List.not_mem_nil, or_false] at herror
    rcases herror with rfl | rfl <;> rfl
  have hentries : p.diagnostics = d.finish.diagnostics.entries ++ options.lint.lint d.finish.tree := by
    rw [hfinish]
    rfl
  rw [hentries, List.filter_append, hlint, List.append_nil, hend, hkept.reported]
  refine (repetitions_append_of_other fun c hc => ?_).symm
  rw [Token.isName, htail c hc]
  rfl

/-- A name that has been named, a short form that has the key of a long one, and a word with the key
of another. -/
example : (Parse.ofText { dialect := .template } "<a x v-bind:y :y x x>".toList).diagnostics.filter
        Diagnostic.isDuplicate =
      [ParseError.commandDuplicate.entry ⟨14, 16⟩, ParseError.attributeDuplicate.entry ⟨17, 18⟩,
        ParseError.attributeDuplicate.entry ⟨19, 20⟩] ∧
    (Parse.ofText {} "```js js k=1 k\n".toList).diagnostics.filter Diagnostic.isDuplicate =
      [ParseError.attributeDuplicate.entry ⟨13, 14⟩] := by
  decide +kernel

end HybridMarkup
