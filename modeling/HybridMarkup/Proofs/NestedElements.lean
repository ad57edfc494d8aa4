/-
The grammar of elements in host code.

The reader of elements keeps no stack: it goes through the text in three places, within a start tag,
between tags and within an end tag, and counts the open elements. The grammar given here is the
recursive one, in which an element holds elements. What connects the two is that an element, read
with `n` open elements around it, leaves the count at `n` and the reader behind the element
(`Jsx.run`), so that whatever stands in a content can be passed over one piece after another. The
other direction is by induction on the length of the text: a reader that comes to its end has come
through the content of the innermost open element, and from there on through the content around it
(`exists_element`, `exists_content`).

Within a tag the characters are told from the closing of the tag by what follows them, so the inside
of a tag is described together with its closing (`TagBody`).
-/
import HybridMarkup.Proofs.HostGrammar

set_option autoImplicit false

namespace HybridMarkup.HostCode

open Text

/-! ## The grammar -/

/-- Whether the character means something in a tag, wherever it stands. -/
def isTagMark (c : Char) : Bool := ['\'', '"', '\x60', '{', '>'].contains c

/-- Whether a comment or the end of a closed tag begins here. -/
def opensTagPair (t : Text) : Bool :=
  pairAt (fun a b => a == '/' && (b == '/' || b == '*' || b == '>')) t

/-- The inside of a start tag that is closed like this. -/
inductive TagBody (close : Text) : Text → Prop where
  | nil : TagBody close []
  | char {c : Char} {t : Text} : isTagMark c = false → opensTagPair (c :: (t ++ close)) = false →
      TagBody close t → TagBody close (c :: t)
  | form {f t : Text} : Form f t → TagBody close t → TagBody close (f ++ t)

/-- The two sorts of the grammar. -/
inductive JsxSort where
  /-- An element without its first angle bracket. -/
  | element
  /-- What stands between the start tag and the end tag of an element. -/
  | content
deriving DecidableEq, Repr

/-- Elements, and what they contain. An angle bracket that a slash follows begins an end tag, so no
element within another begins in that way. -/
inductive Jsx : JsxSort → Text → Prop where
  | closedTag {t : Text} : TagBody ['/', '>'] t → Jsx .element (t ++ ['/', '>'])
  | pairedTags {t c name : Text} : TagBody ['>'] t → Jsx .content c → '>' ∉ name →
      Jsx .element (t ++ '>' :: (c ++ '<' :: '/' :: (name ++ ['>'])))
  | nil : Jsx .content []
  | char {d : Char} {c : Text} : d ≠ '{' → d ≠ '<' → Jsx .content c → Jsx .content (d :: c)
  | group {b c : Text} : Enclosed .braces b → Jsx .content c →
      Jsx .content ('{' :: (b ++ '}' :: c))
  | nested {e c : Text} : Jsx .element e → e.head? ≠ some '/' → Jsx .content c →
      Jsx .content ('<' :: (e ++ c))

/-! ## Steps of the reader -/

variable {n : Nat} {c : Char} {t u r close : Text}

/-- Behind the end of an element: in the content of the one around it, or at the end. -/
def behindElement : Nat → Text → Option Text
  | 0, t => some t
  | outer + 1, t => skipJsxFrom .content outer t

theorem skipJsxFrom_nil (place : JsxPlace) (n : Nat) : skipJsxFrom place n [] = none := rfl

theorem startTag_closed (t : Text) :
    skipJsxFrom .startTag n ('/' :: '>' :: t) = behindElement n t := by
  rw [skipJsxFrom_eq]
  cases n <;> rfl

theorem startTag_open (t : Text) :
    skipJsxFrom .startTag n ('>' :: t) = skipJsxFrom .content n t := by
  rw [skipJsxFrom_eq]
  rfl

theorem content_group (t : Text) :
    skipJsxFrom .content n ('{' :: t) = (skipBraces t).bind (skipJsxFrom .content n) := by
  rw [skipJsxFrom_eq]
  rfl

theorem content_endTag (t : Text) :
    skipJsxFrom .content n ('<' :: '/' :: t) = skipJsxFrom .endTag n t := by
  rw [skipJsxFrom_eq]
  rfl

theorem content_nested (h : t.head? ≠ some '/') :
    skipJsxFrom .content n ('<' :: t) = skipJsxFrom .startTag (n + 1) t := by
  rw [skipJsxFrom_eq, jsxRound_open]
  rintro u rfl
  exact h rfl

theorem endTag_close (t : Text) : skipJsxFrom .endTag n ('>' :: t) = behindElement n t := by
  rw [skipJsxFrom_eq]
  cases n <;> rfl

/-- A form in a start tag. -/
theorem startTag_over (h : skipForm t = some u) :
    skipJsxFrom .startTag n t = skipJsxFrom .startTag n u := by
  rw [skipJsxFrom_eq, jsxRound_startTag]
  · unfold tagRound
    rw [h]
  · rintro v rfl
    simp [skipForm, skipFormWith] at h
  · rintro v rfl
    simp [skipForm, skipFormWith] at h
  · rintro rfl
    simp [skipForm, skipFormWith] at h

/-- The search in a tag halts at the marks and at the pairs. -/
theorem atTagStop_eq_false_iff :
    atTagStop (c :: t) = false ↔ isTagMark c = false ∧ opensTagPair (c :: t) = false := by
  unfold atTagStop isTagMark opensTagPair pairAt
  split <;> simp_all
  grind

theorem skipForm_eq_none_of_tagPlain (h : atTagStop t = false) : skipForm t = none := by
  unfold skipForm skipFormWith
  unfold atTagStop at h
  split <;> simp_all

/-- A character in a start tag that means nothing. -/
theorem startTag_char (h : atTagStop (c :: t) = false) :
    skipJsxFrom .startTag n (c :: t) = skipJsxFrom .startTag n t := by
  refine Text.step_of_seek (skipJsxFrom .startTag n) _ (fun c t h => ?_) h
  have hform := skipForm_eq_none_of_tagPlain h
  rw [skipJsxFrom_eq, jsxRound_startTag]
  · unfold tagRound
    rw [hform]
  · rintro u heq
    rw [heq] at h
    exact absurd h (by simp [atTagStop])
  · rintro u heq
    rw [heq] at h
    exact absurd h (by simp [atTagStop])
  · exact List.cons_ne_nil c t

theorem step_of_seekAny {α : Type} (go : Text → α) (chars : List Char)
    (h : ∀ c t, chars.contains c = false → go (c :: t) = go (seekAny chars (c :: t)))
    (hc : chars.contains c = false) : go (c :: t) = go t := by
  refine Text.step_of_seek go (fun t => t.head?.any fun c => !!chars.contains c)
    (fun c t hc => ?_) (by simpa using hc)
  rw [← dropWhile_eq_seek]
  exact h c t (by simpa using hc)

theorem content_char (hbrace : c ≠ '{') (hangle : c ≠ '<') :
    skipJsxFrom .content n (c :: t) = skipJsxFrom .content n t := by
  refine step_of_seekAny (skipJsxFrom .content n) ['{', '<'] (fun c t hc => ?_)
    (by simp [hbrace, hangle])
  rw [skipJsxFrom_eq, jsxRound_content]
  · rintro u heq
    obtain ⟨rfl, _⟩ := List.cons.inj heq
    simp at hc
  · rintro u heq
    obtain ⟨rfl, _⟩ := List.cons.inj heq
    simp at hc
  · exact List.cons_ne_nil c t

theorem endTag_char (h : c ≠ '>') : skipJsxFrom .endTag n (c :: t) = skipJsxFrom .endTag n t := by
  refine step_of_seekAny (skipJsxFrom .endTag n) ['>'] (fun c t hc => ?_)
    (by simp [h])
  rw [skipJsxFrom_eq, jsxRound_endTag]
  · rintro u heq
    obtain ⟨rfl, _⟩ := List.cons.inj heq
    simp at hc
  · exact List.cons_ne_nil c t

/-! ## The reader accepts the grammar -/

theorem pairAt_extend {p : Char → Char → Bool} (h : pairAt p (c :: t) = false) (ht : t ≠ [])
    (u : Text) : pairAt p (c :: (t ++ u)) = false := by
  cases t with
  | nil => exact absurd rfl ht
  | cons d t => exact h

/-- The inside of a tag is passed over, up to where the tag is closed. -/
theorem TagBody.run (h : TagBody close t) (hclose : close ≠ []) (n : Nat) (u : Text) :
    skipJsxFrom .startTag n (t ++ close ++ u) = skipJsxFrom .startTag n (close ++ u) := by
  induction h with
  | nil => rfl
  | @char c t hmark hpair _ ih =>
    have hplain : atTagStop (c :: (t ++ close ++ u)) = false :=
      atTagStop_eq_false_iff.2 ⟨hmark, pairAt_extend hpair (by simp [hclose]) u⟩
    rw [List.cons_append, List.cons_append, startTag_char hplain, ih]
  | @form f t hf _ ih =>
    have hform : Form f (t ++ close ++ u) := by
      rw [List.append_assoc]
      exact hf.congr fun hbreak => hbreak.append _
    have htext : f ++ t ++ close ++ u = f ++ (t ++ close ++ u) := by simp
    rw [htext, startTag_over hform.skipForm_eq, ih]

theorem endTag_run {name : Text} (h : '>' ∉ name) (n : Nat) (u : Text) :
    skipJsxFrom .endTag n (name ++ '>' :: u) = behindElement n u := by
  induction name with
  | nil => exact endTag_close u
  | cons c name ih =>
    rw [List.mem_cons, not_or] at h
    rw [List.cons_append, endTag_char (Ne.symm h.1), ih h.2]

/-- Where the reader of a sort begins. -/
def JsxSort.place : JsxSort → JsxPlace
  | .element => .startTag
  | .content => .content

/-- Where the reader goes on behind a piece of the sort. -/
def JsxSort.behind : JsxSort → Nat → Text → Option Text
  | .element => behindElement
  | .content => skipJsxFrom .content

theorem Jsx.element_ne_nil {e : Text} (h : Jsx .element e) : e ≠ [] := by
  cases h <;> simp

/-- **A piece of an element is passed over**, and the count of open elements is what it was. -/
theorem Jsx.run {sort : JsxSort} {e : Text} (h : Jsx sort e) (n : Nat) (u : Text) :
    skipJsxFrom sort.place n (e ++ u) = sort.behind n u := by
  induction h generalizing n u with
  | @closedTag t ht =>
    exact (ht.run (by simp) n u).trans (startTag_closed u)
  | @pairedTags t c name ht _ hname ih =>
    have htext : t ++ '>' :: (c ++ '<' :: '/' :: (name ++ ['>'])) ++ u
        = t ++ ['>'] ++ (c ++ '<' :: '/' :: (name ++ '>' :: u)) := by simp
    show skipJsxFrom .startTag n _ = behindElement n u
    rw [htext, ht.run (by simp)]
    show skipJsxFrom .startTag n ('>' :: _) = _
    rw [startTag_open]
    refine (ih n _).trans ?_
    show skipJsxFrom .content n ('<' :: '/' :: _) = _
    rw [content_endTag, endTag_run hname]
  | nil => rfl
  | @char d c hbrace hangle _ ih =>
    show skipJsxFrom .content n (d :: (c ++ u)) = _
    rw [content_char hbrace hangle]
    exact ih n u
  | @group b c hb _ ih =>
    have htext : '{' :: (b ++ '}' :: c) ++ u = '{' :: (b ++ '}' :: (c ++ u)) := by simp
    show skipJsxFrom .content n _ = _
    rw [htext, content_group, show skipBraces (b ++ '}' :: (c ++ u)) = some (c ++ u) from
      hb.skipIn_eq (c ++ u)]
    exact ih n u
  | @nested e c he hslash _ ihe ihc =>
    have hhead : (e ++ (c ++ u)).head? ≠ some '/' := by
      obtain ⟨d, e, rfl⟩ := List.exists_cons_of_ne_nil he.element_ne_nil
      exact hslash
    show skipJsxFrom .content n ('<' :: (e ++ c ++ u)) = _
    rw [List.append_assoc, content_nested hhead]
    exact (ihe (n + 1) (c ++ u)).trans (ihc n u)

/-! ## The reader accepts nothing else -/

/-- What closes a start tag. -/
def IsTagClose (close : Text) : Prop := close = ['/', '>'] ∨ close = ['>']

theorem IsTagClose.ne_nil (h : IsTagClose close) : close ≠ [] := by
  rcases h with rfl | rfl <;> simp

/-- Where a tag is not closed, a form begins or there is nothing to be done. -/
theorem tagPlain_or_form (h : ∀ close u, IsTagClose close → c :: t ≠ close ++ u) :
    atTagStop (c :: t) = false ∨ ∃ u, skipForm (c :: t) = some u := by
  cases hform : skipForm (c :: t) with
  | some u => exact .inr ⟨u, rfl⟩
  | none =>
    left
    apply atTagStop_eq_false hform
    · exact fun u => h ['/', '>'] u (.inl rfl)
    · exact fun u => h ['>'] u (.inr rfl)

/-- A reader that comes to its end from within a start tag has come to where the tag is closed. -/
theorem exists_tag (h : skipJsxFrom .startTag n t = some r) :
    ∃ close body u, IsTagClose close ∧ TagBody close body ∧ t = body ++ close ++ u ∧
      skipJsxFrom .startTag n (close ++ u) = some r := by
  induction hn : t.length using Nat.strongRecOn generalizing t with
  | ind k ih =>
    subst hn
    cases t with
    | nil => exact absurd h (by simp [skipJsxFrom_nil])
    | cons c t =>
      by_cases hhere : ∃ close u, IsTagClose close ∧ c :: t = close ++ u
      · obtain ⟨close, u, hclose, heq⟩ := hhere
        exact ⟨close, [], u, hclose, .nil, heq, heq ▸ h⟩
      have hnot (close u : Text) (hclose : IsTagClose close) : c :: t ≠ close ++ u :=
        fun heq => hhere ⟨close, u, hclose, heq⟩
      rcases tagPlain_or_form hnot with hplain | ⟨v, hform⟩
      · rw [startTag_char hplain] at h
        obtain ⟨close, body, u, hclose, hbody, rfl, hrest⟩ := ih t.length (Nat.lt_succ_self _) h rfl
        obtain ⟨hmark, hpair⟩ := atTagStop_eq_false_iff.1 hplain
        exact ⟨close, c :: body, u, hclose, .char hmark (pairAt_of_append hpair) hbody, rfl, hrest⟩
      · rw [startTag_over hform] at h
        obtain ⟨close, body, u, hclose, hbody, rfl, hrest⟩ :=
          ih v.length (skipForm_advances hform).shorter h rfl
        have hne : body ++ close ++ u ≠ [] := by simp [hclose.ne_nil]
        obtain ⟨f, hf, htext⟩ := exists_form_of_skipForm hform hne
        -- what follows the form in the tag begins as what follows it in the text
        have hbreak : AtBreak (body ++ close ++ u) → AtBreak body := by
          rw [List.append_assoc]
          intro h
          apply h.of_append
          rcases hclose with rfl | rfl <;> simp [AtBreak]
        exact ⟨close, f ++ body, u, hclose, .form (hf.congr hbreak) hbody, by simp [htext], hrest⟩

/-- A reader that comes to its end from within an end tag has come to where the tag is closed. -/
theorem exists_endTag (h : skipJsxFrom .endTag n t = some r) :
    ∃ name u, '>' ∉ name ∧ t = name ++ '>' :: u ∧ behindElement n u = some r := by
  induction t with
  | nil => exact absurd h (by simp [skipJsxFrom_nil])
  | cons c t ih =>
    by_cases hc : c = '>'
    · subst hc
      rw [endTag_close] at h
      exact ⟨[], t, List.not_mem_nil, rfl, h⟩
    · rw [endTag_char hc] at h
      obtain ⟨name, u, hname, rfl, hrest⟩ := ih h
      exact ⟨c :: name, u, by simp [Ne.symm hc, hname], rfl, hrest⟩

/-- The reader comes to its end from the start tag of an element only by way of the end of that
element. -/
def EndsElements (t : Text) : Prop :=
  ∀ n r, skipJsxFrom .startTag n t = some r →
    ∃ e u, Jsx .element e ∧ t = e ++ u ∧ behindElement n u = some r

/-- From between two tags it comes to its end only by way of an end tag. -/
def EndsContents (t : Text) : Prop :=
  ∀ n r, skipJsxFrom .content n t = some r →
    ∃ c name u, Jsx .content c ∧ '>' ∉ name ∧ t = c ++ '<' :: '/' :: (name ++ '>' :: u) ∧
      behindElement n u = some r

theorem endsElements_of_shorter (ih : ∀ u, Advances t u → EndsContents u) : EndsElements t := by
  intro n r h
  obtain ⟨close, body, u, hclose, hbody, rfl, hrest⟩ := exists_tag h
  rcases hclose with rfl | rfl
  · refine ⟨body ++ ['/', '>'], u, .closedTag hbody, rfl, ?_⟩
    exact (startTag_closed u).symm.trans hrest
  · have hstep : Advances (body ++ ['>'] ++ u) u := advances_append (by simp)
    have hcontent : skipJsxFrom .content n u = some r := (startTag_open u).symm.trans hrest
    obtain ⟨c, name, v, hc, hname, rfl, hbehind⟩ := ih u hstep n r hcontent
    exact ⟨_, v, .pairedTags hbody hc hname, by simp, hbehind⟩

theorem endsContents_of_shorter
    (ih : ∀ u, Advances t u → EndsElements u ∧ EndsContents u) : EndsContents t := by
  intro n r h
  cases t with
  | nil => exact absurd h (by simp [skipJsxFrom_nil])
  | cons d t =>
    have hstep : Advances (d :: t) t := .cons (List.suffix_refl t)
    by_cases hbrace : d = '{'
    · subst hbrace
      rw [content_group] at h
      obtain ⟨v, hgroup, hrest⟩ := Option.bind_eq_some_iff.1 h
      obtain ⟨b, hb, rfl⟩ := exists_enclosed (w := .braces) hgroup
      obtain ⟨c, name, u, hc, hname, rfl, hbehind⟩ :=
        (ih v (hstep.of_suffix (skipBraces_suffix _ _ hgroup))).2 n r hrest
      exact ⟨_, name, u, .group hb hc, hname, by simp [Enclosure.mark], hbehind⟩
    by_cases hangle : d = '<'
    · subst hangle
      by_cases hslash : t.head? = some '/'
      · obtain ⟨v, rfl⟩ := List.head?_eq_some_iff.1 hslash
        rw [content_endTag] at h
        obtain ⟨name, u, hname, rfl, hbehind⟩ := exists_endTag h
        exact ⟨[], name, u, .nil, hname, rfl, hbehind⟩
      · rw [content_nested hslash] at h
        obtain ⟨e, v, he, rfl, hrest⟩ := (ih t hstep).1 (n + 1) r h
        -- behind the element the reader is in the content again
        obtain ⟨c, name, u, hc, hname, rfl, hbehind⟩ :=
          (ih v (hstep.of_suffix (List.suffix_append e v))).2 n r hrest
        obtain ⟨a, e, rfl⟩ := List.exists_cons_of_ne_nil he.element_ne_nil
        exact ⟨_, name, u, .nested he hslash hc, hname, by simp, hbehind⟩
    · rw [content_char hbrace hangle] at h
      obtain ⟨c, name, u, hc, hname, rfl, hbehind⟩ := (ih t hstep).2 n r h
      exact ⟨d :: c, name, u, .char hbrace hangle hc, hname, rfl, hbehind⟩

/-- **A reader that comes to its end has come through whole elements.** -/
theorem ends_elements (t : Text) : EndsElements t ∧ EndsContents t := by
  induction hn : t.length using Nat.strongRecOn generalizing t with
  | ind k ih =>
    subst hn
    have hrest (u : Text) (hstep : Advances t u) : EndsElements u ∧ EndsContents u :=
      ih u.length hstep.shorter u rfl
    exact ⟨endsElements_of_shorter fun u hstep => (hrest u hstep).2,
      endsContents_of_shorter hrest⟩

/-- **The reader accepts the elements and nothing else.** -/
theorem skipJsx_iff : skipJsx t = some r ↔ ∃ e, Jsx .element e ∧ t = e ++ r := by
  constructor
  · intro h
    obtain ⟨e, u, he, htext, hbehind⟩ := (ends_elements t).1 0 r h
    obtain rfl := Option.some.inj hbehind
    exact ⟨e, he, htext⟩
  · rintro ⟨e, he, rfl⟩
    exact he.run 0 r

/-- **A text begins with at most one element.** -/
theorem Jsx.unique {e e' r' : Text} (h : Jsx .element e) (h' : Jsx .element e')
    (heq : e ++ r = e' ++ r') : e = e' ∧ r = r' := by
  have hread : skipJsx (e ++ r) = some r := h.run 0 r
  rw [heq, show skipJsx (e' ++ r') = some r' from h'.run 0 r'] at hread
  obtain rfl := Option.some.inj hread
  exact ⟨List.append_cancel_right heq, rfl⟩

/-- **What the reader of elements accepts.** Behind the first angle bracket the loop always has an
answer, so its count of open elements never falls below zero. It succeeds exactly where the text
begins with an element; there is only one such beginning, whatever follows it, and behind it the
cursor stops. Otherwise the loop fails with the cursor at the end of the text. -/
theorem overElement_iff_jsx (t : Text) :
    Loop.overElement t = some (ending (skipJsx t)) ∧
      (∀ r, Loop.overElement t = some (true, r) ↔ ∃ e, Jsx .element e ∧ t = e ++ r) ∧
      ((∃ e, Jsx .element e ∧ e <+: t ∧ ∀ e', Jsx .element e' → e' <+: t → e' = e) ∨
        Loop.overElement t = some (false, [])) := by
  have hloop := Loop.overElement_eq t
  refine ⟨hloop, fun r => ?_, ?_⟩
  · rw [hloop, Option.some.injEq, Loop.ending_eq_true_iff]
    exact skipJsx_iff
  · cases hread : skipJsx t with
    | none =>
      right
      rw [hloop, hread]
      rfl
    | some r =>
      left
      obtain ⟨e, he, htext⟩ := skipJsx_iff.1 hread
      refine ⟨e, he, ⟨r, htext.symm⟩, ?_⟩
      rintro e' he' ⟨r', htext'⟩
      exact (he'.unique he (htext'.trans htext)).1

end HybridMarkup.HostCode
