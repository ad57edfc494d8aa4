/-
Well bracketed tokens.

A template is full of things that are opened and closed again: comments, mustaches, quoted values,
tags, and the elements between the tags. Whether each of them is closed, and in the right place, can
be told from the tokens alone, with a stack of what is open. This file has that check
(`Bracket.balanced`); it knows nothing of the scanner or of the tree.

The check is strict or lenient. The lenient one lets pass what the strict one does not: an end tag
that has no name, which closes nothing, and an end tag that the end of the text cuts short.
-/
import HybridMarkup.Parse.Template

set_option autoImplicit false

namespace HybridMarkup

/-- Something that is open and has to be closed. -/
inductive Bracket where
  | comment
  | mustache
  | quote
  /-- A start tag before its name. -/
  | tagName
  | startTag (tag : Text)
  | element (tag : Text)
  /-- An end tag before its name. -/
  | endTagName
  | endTag (name : Text)
deriving DecidableEq, Repr

namespace Bracket

/-- What a token opens that stands between tags, if it may stand there. -/
def content? : TokenKind → Option (List Bracket)
  | .whitespace | .text | .rawText => some []
  | .commentStart => some [.comment]
  | .mustacheStart => some [.mustache]
  | .startTagOpen => some [.tagName]
  | .endTagOpen => some [.endTagName]
  | _ => none

/-- What becomes of the innermost open thing at a token, if the token may stand in it. -/
def within? (lenient : Bool) (t : Token) : Bracket → Option (List Bracket)
  | .comment =>
    match t.kind with
    | .commentContent => some [.comment]
    | .commentEnd => some []
    | _ => none
  | .mustache =>
    match t.kind with
    | .mustacheContent => some [.mustache]
    | .mustacheEnd => some []
    | _ => none
  | .quote =>
    match t.kind with
    | .attributeValue => some [.quote]
    | .mustacheStart => some [.mustache, .quote]
    | .attributeMark => some []
    | _ => none
  | .tagName =>
    match t.kind with
    | .startTag => some [.startTag t.lexeme]
    | _ => none
  | .startTag tag =>
    match t.kind with
    | .whitespace | .attributeName | .directiveName | .attributeDelimiter | .attributeValue =>
      some [.startTag tag]
    | .attributeMark => some [.quote, .startTag tag]
    | .startTagClose => some (if isVoid tag then [] else [.element tag])
    | .startTagSelfClose => some []
    | _ => none
  | .element tag => (content? t.kind).map (· ++ [.element tag])
  | .endTagName =>
    match t.kind with
    | .endTag => some [.endTag t.lexeme]
    | .endTagClose => if lenient then some [] else none
    | _ => none
  -- the bracket that closes an end tag closes the element around it as well
  | .endTag name =>
    match t.kind with
    | .whitespace => some [.endTag name]
    | _ => none

/-- What is open behind a token, the innermost first. `none` if the token does not fit. -/
def step? (lenient : Bool) (t : Token) : List Bracket → Option (List Bracket)
  | [] => content? t.kind
  | .endTag name :: .element tag :: outer =>
    if t.kind = .endTagClose ∧ Text.equalIgnoringCase tag name = true then some outer
    else (within? lenient t (.endTag name)).map (· ++ .element tag :: outer)
  | top :: outer => (within? lenient t top).map (· ++ outer)

/-- Whether the text may end where this is open. -/
def mayEnd (lenient : Bool) : List Bracket → Bool
  | [] => true
  | [.endTagName] | [.endTag _] => lenient
  | _ => false

/-- Whether the tokens close what is open, and what they open themselves, up to the end of the
text. -/
def balanced (lenient : Bool) : List Bracket → List Token → Bool
  | _, [] => false
  | opened, t :: ts =>
    if t.kind = .eos then ts.isEmpty && mayEnd lenient opened
    else
      match step? lenient t opened with
      | some inner => balanced lenient inner ts
      | none => false

variable {lenient : Bool} {t : Token} {opened inner pushed : List Bracket} {ts : List Token}

theorem balanced_cons (hkind : t.kind ≠ .eos) (hstep : step? lenient t opened = some inner)
    (h : balanced lenient inner ts = true) : balanced lenient opened (t :: ts) = true := by
  rw [balanced, if_neg hkind, hstep]
  exact h

theorem step?_within {top : Bracket} (inner : List Bracket)
    (h : within? lenient t top = some inner) (outer : List Bracket) :
    step? lenient t (top :: outer) = some (inner ++ outer) := by
  unfold step?
  split
  · next heq => simp at heq
  · next name tag outer heq =>
    obtain ⟨rfl, rfl⟩ := List.cons.inj heq
    have hkind : t.kind ≠ .endTagClose := fun hkind => by simp [within?, hkind] at h
    rw [if_neg fun hclose => hkind hclose.1, h]
    rfl
  · next heq =>
    obtain ⟨rfl, rfl⟩ := List.cons.inj heq
    rw [h]
    rfl

/-- The elements that are open, with tags between them or not. -/
theorem step?_elements (tags : List Text) (h : content? t.kind = some pushed) :
    step? lenient t (tags.map .element) = some (pushed ++ tags.map .element) := by
  cases tags with
  | nil => simp [step?, h]
  | cons tag tags =>
    have hwithin : within? lenient t (.element tag) = some (pushed ++ [.element tag]) := by
      simp [within?, h]
    rw [List.map_cons, step?_within _ hwithin, List.append_assoc]
    rfl

/-! ## Elements without a name -/

theorem content?_endTag {name : Text} {kind : TokenKind} (h : content? kind = some pushed) :
    .endTag name ∉ pushed := by
  unfold content? at h
  split at h <;> grind

/-- The name of an end tag is the lexeme of a token. -/
theorem within?_endTag {top : Bracket} {name : Text} (h : within? lenient t top = some inner)
    (hname : .endTag name ∈ inner) :
    top = .endTag name ∨ t.kind = .endTag ∧ t.lexeme = name := by
  cases top with
  | element tag =>
    obtain ⟨pushed, hpushed, rfl⟩ := Option.map_eq_some_iff.1 h
    simp [content?_endTag hpushed] at hname
  | _ =>
    simp only [within?] at h
    split at h <;> grind

/-- **An element without a name stays open**, since there is no end tag for it. -/
theorem step?_nameless (h : step? lenient t opened = some inner)
    (ht : t.kind = .endTag → t.lexeme ≠ []) (hopen : .element [] ∈ opened)
    (hend : .endTag [] ∉ opened) : .element [] ∈ inner ∧ .endTag [] ∉ inner := by
  have hturn {top : Bracket} {outer : List Bracket} (hopened : opened = top :: outer)
      (h : (within? lenient t top).map (· ++ outer) = some inner) :
      .element [] ∈ inner ∧ .endTag [] ∉ inner := by
    obtain ⟨new, hnew, rfl⟩ := Option.map_eq_some_iff.1 h
    rw [hopened] at hopen hend
    rw [List.mem_append, List.mem_append]
    constructor
    · rcases List.mem_cons.1 hopen with rfl | houter
      · obtain ⟨pushed, _, rfl⟩ := Option.map_eq_some_iff.1 hnew
        simp
      · exact .inr houter
    · rintro (hmem | hmem)
      · rcases within?_endTag hnew hmem with rfl | ⟨hkind, hlexeme⟩
        · exact hend List.mem_cons_self
        · exact ht hkind hlexeme
      · exact hend (List.mem_cons_of_mem _ hmem)
  unfold step? at h
  split at h
  · simp at hopen
  · next name tag outer =>
    split at h
    · next hclose =>
      obtain rfl := Option.some.inj h
      -- the end tag that closes the element would have no name either
      have hne : .element [] ≠ Bracket.element tag := by
        rintro heq
        obtain rfl : [] = tag := by simpa using heq
        have hname : name = [] := by simpa [Text.equalIgnoringCase] using hclose.2
        simp [hname] at hend
      simp [hne] at hopen hend
      exact ⟨hopen, hend.2⟩
    · exact hturn rfl h
  · exact hturn rfl h

theorem balanced_nameless (hts : ∀ t ∈ ts, t.kind = .endTag → t.lexeme ≠ [])
    (hopen : .element [] ∈ opened) (hend : .endTag [] ∉ opened) :
    balanced lenient opened ts = false := by
  induction ts generalizing opened with
  | nil => rfl
  | cons t ts ih =>
    unfold balanced
    split
    · unfold mayEnd
      split <;> simp_all
    · split
      · next inner hstep =>
        obtain ⟨hopen, hend⟩ := step?_nameless hstep (hts t List.mem_cons_self) hopen hend
        exact ih (fun t ht => hts t (List.mem_cons_of_mem _ ht)) hopen hend
      · rfl

end Bracket

/-! ## End tags in pieces -/

namespace Token

/-- Whether every end tag has more to it than its brackets, and has both of them. -/
def endTagsWhole : List Token → Bool
  | [] => true
  | o :: after =>
    (o.kind != .endTagOpen ||
      (after.head?.all (·.kind != .endTagClose) && after.any (·.kind == .endTagClose))) &&
    endTagsWhole after

theorem endTagsWhole_split {before after : List Token} {o : Token}
    (h : endTagsWhole (before ++ o :: after) = true) (ho : o.kind = .endTagOpen) :
    after.head?.all (·.kind != .endTagClose) = true ∧ ∃ c ∈ after, c.kind = .endTagClose := by
  induction before with
  | nil => simpa [endTagsWhole, ho, and_assoc] using (Bool.and_eq_true_iff.1 h).1
  | cons b before ih => exact ih (Bool.and_eq_true_iff.1 h).2

end Token

end HybridMarkup
