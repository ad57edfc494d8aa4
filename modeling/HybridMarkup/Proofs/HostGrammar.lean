/-
The grammar of what stands between braces.

The readers of host code only look for an end. What they accept is nevertheless a language: the code
between braces is a sequence of characters that mean nothing and of forms, of which some hold such a
sequence themselves. The grammar of that language is given here on its own, over texts without any
cursor, and the readers are shown to accept it and nothing else (`skipIn_iff`).

Where a form ends may depend on what follows it: a line comment ends in front of a line break, and
so does a string without its closing quote. The grammar says so by a second text, the one that
follows, of which only its beginning matters (`Flat.congr`). Everything else in it is decided by what
has been read, and so a text begins with at most one member of the language that is closed there
(`Enclosed.unique`).

One direction is by induction on the grammar (`Enclosed.skipIn_eq`); the other is by induction on
the length of the text, since a group may hold any text that is shorter (`exists_enclosed`).
-/
import HybridMarkup.Proofs.CharacterSteps

set_option autoImplicit false

namespace HybridMarkup

open Text

namespace HostCode

/-! ## The grammar -/

/-- The inside of a string between these quotes: neither the quote nor a line break stands in it,
except behind a backslash. -/
inductive InString (quote : Char) : Text → Prop where
  | nil : InString quote []
  | escape {c : Char} {s : Text} : InString quote s → InString quote ('\\' :: c :: s)
  | char {c : Char} {s : Text} : c ≠ '\\' → c ≠ quote → c ≠ '\n' → c ≠ '\r' → InString quote s →
      InString quote (c :: s)

/-- The text begins with a line break. -/
def AtBreak : Text → Prop
  | c :: _ => c = '\n' ∨ c = '\r'
  | [] => False

/-- The quotes of a string. -/
def IsQuote (q : Char) : Prop := q = '\'' ∨ q = '"'

/-- The forms that hold no other form. The second text is what follows. -/
inductive Flat : Text → Text → Prop where
  | string {q : Char} {s u : Text} : IsQuote q → InString q s → Flat (q :: s ++ [q]) u
  /-- A string that the end of its line cuts short. -/
  | cutString {q : Char} {s u : Text} : IsQuote q → InString q s → AtBreak u → Flat (q :: s) u
  | lineComment {s u : Text} : '\n' ∉ s → '\r' ∉ s → AtBreak u → Flat ('/' :: '/' :: s) u
  | blockComment {s u : Text} : ¬ ['*', '/'] <:+: s → Flat ('/' :: '*' :: s ++ ['*', '/']) u

/-- What a text may be enclosed in. -/
inductive Enclosure where
  | braces
  | backquotes
deriving DecidableEq, Repr

/-- What closes the enclosure. -/
def Enclosure.mark : Enclosure → Char
  | .braces => '}'
  | .backquotes => '\x60'

/-- Whether two characters of a kind stand here. -/
def pairAt (p : Char → Char → Bool) : Text → Bool
  | a :: b :: _ => p a b
  | _ => false

/-- Whether a comment begins here. -/
def opensComment (t : Text) : Bool := pairAt (fun a b => a == '/' && (b == '/' || b == '*')) t

/-- Whether the character means something in host code, wherever it stands. -/
def isMark (c : Char) : Bool := ['\'', '"', '\x60', '{', '}'].contains c

/-- Whether a hole of a template literal begins here. -/
def opensHole (t : Text) : Bool := pairAt (fun a b => a == '$' && b == '{') t

/-- What may stand in braces, and what may stand in backquotes. -/
inductive Enclosed : Enclosure → Text → Prop where
  | nil {w : Enclosure} : Enclosed w []
  -- host code
  | char {c : Char} {b : Text} : isMark c = false → opensComment (c :: b) = false →
      Enclosed .braces b → Enclosed .braces (c :: b)
  | flat {f b : Text} : Flat f b → Enclosed .braces b → Enclosed .braces (f ++ b)
  | template {s b : Text} : Enclosed .backquotes s → Enclosed .braces b →
      Enclosed .braces (('\x60' :: s ++ ['\x60']) ++ b)
  | group {a b : Text} : Enclosed .braces a → Enclosed .braces b →
      Enclosed .braces (('{' :: a ++ ['}']) ++ b)
  -- the text of a template literal
  | letter {c : Char} {s : Text} : c ≠ '\\' → c ≠ '\x60' → opensHole (c :: s) = false →
      Enclosed .backquotes s → Enclosed .backquotes (c :: s)
  | escape {c : Char} {s : Text} : Enclosed .backquotes s → Enclosed .backquotes ('\\' :: c :: s)
  | hole {b s : Text} : Enclosed .braces b → Enclosed .backquotes s →
      Enclosed .backquotes (('$' :: '{' :: b ++ ['}']) ++ s)

/-- The forms of the host language. The second text is what follows. -/
inductive Form : Text → Text → Prop where
  | flat {f u : Text} : Flat f u → Form f u
  | template {s u : Text} : Enclosed .backquotes s → Form ('\x60' :: s ++ ['\x60']) u
  | group {b u : Text} : Enclosed .braces b → Form ('{' :: b ++ ['}']) u

/-! ## What follows a form -/

variable {w : Enclosure} {b f r s t u v : Text} {c q : Char}

theorem AtBreak.append (h : AtBreak u) (v : Text) : AtBreak (u ++ v) := by
  cases u with
  | nil => exact absurd h id
  | cons c u => exact h

theorem AtBreak.of_append (h : AtBreak (u ++ v)) (hv : ¬ AtBreak v) : AtBreak u := by
  cases u with
  | nil => exact absurd h hv
  | cons c u => exact h

/-- Of what follows a form only the beginning matters. -/
theorem Flat.congr (h : Flat f u) (hbreak : AtBreak u → AtBreak v) : Flat f v := by
  cases h with
  | string hq hs => exact .string hq hs
  | cutString hq hs hu => exact .cutString hq hs (hbreak hu)
  | lineComment hn hr hu => exact .lineComment hn hr (hbreak hu)
  | blockComment hs => exact .blockComment hs

theorem Form.congr (h : Form f u) (hbreak : AtBreak u → AtBreak v) : Form f v := by
  cases h with
  | flat hf => exact .flat (hf.congr hbreak)
  | template hs => exact .template hs
  | group hb => exact .group hb

/-- A form in front of host code. -/
theorem Form.enclosed (h : Form f b) (hb : Enclosed .braces b) : Enclosed .braces (f ++ b) := by
  cases h with
  | flat hf => exact .flat hf hb
  | template hs => exact .template hs hb
  | group ha => exact .group ha hb

/-! ## Strings and comments -/

theorem IsQuote.ne_backslash (hq : IsQuote q) : q ≠ '\\' := by
  rcases hq with rfl | rfl <;> decide

theorem skipString_char (hslash : c ≠ '\\') (hquote : c ≠ q) (hn : c ≠ '\n') (hr : c ≠ '\r') :
    skipString q (c :: t) = skipString q t := by
  rw [skipString_cons hslash, if_neg hquote, if_neg (by simp [hn, hr])]

theorem InString.skipString_eq (h : InString q s) (u : Text) :
    skipString q (s ++ u) = skipString q u := by
  induction h with
  | nil => rfl
  | escape _ ih => exact ih
  | char hslash hquote hn hr _ ih => rw [List.cons_append, skipString_char hslash hquote hn hr, ih]

theorem skipString_quote (hq : IsQuote q) (u : Text) : skipString q (q :: u) = (true, u) := by
  rw [skipString_cons hq.ne_backslash, if_pos rfl]

theorem skipString_break (hq : IsQuote q) (hu : AtBreak u) : skipString q u = (false, u) := by
  cases u with
  | nil => exact absurd hu id
  | cons c u => rcases hq with rfl | rfl <;> rcases hu with rfl | rfl <;> rfl

/-- A string ends at its quote, or at the end of its line, or nowhere. -/
theorem skipString_cases (hq : IsQuote q) (t : Text) :
    skipString q t = (false, []) ∨
      ∃ s u, InString q s ∧
        (t = s ++ q :: u ∧ skipString q t = (true, u) ∨
          t = s ++ u ∧ AtBreak u ∧ skipString q t = (false, u)) := by
  induction t using string_induction with
  | nil => exact .inl rfl
  | lone => exact .inl rfl
  | escape c t ih =>
    rcases ih with hnone | ⟨s, u, hs, ⟨rfl, heq⟩ | ⟨rfl, hu, heq⟩⟩
    · exact .inl hnone
    · exact .inr ⟨_, u, .escape hs, .inl ⟨rfl, heq⟩⟩
    · exact .inr ⟨_, u, .escape hs, .inr ⟨rfl, hu, heq⟩⟩
  | plain c t hslash ih =>
    by_cases hquote : c = q
    · subst hquote
      exact .inr ⟨[], t, .nil, .inl ⟨rfl, skipString_quote hq t⟩⟩
    by_cases hbreak : c = '\n' ∨ c = '\r'
    · exact .inr ⟨[], c :: t, .nil, .inr ⟨rfl, hbreak, skipString_break hq hbreak⟩⟩
    rw [not_or] at hbreak
    have hchar : skipString q (c :: t) = skipString q t :=
      skipString_char hslash hquote hbreak.1 hbreak.2
    rcases ih with hnone | ⟨s, u, hs, ⟨rfl, heq⟩ | ⟨rfl, hu, heq⟩⟩
    · exact .inl (hchar.trans hnone)
    · exact .inr ⟨_, u, .char hslash hquote hbreak.1 hbreak.2 hs, .inl ⟨rfl, hchar.trans heq⟩⟩
    · exact .inr ⟨_, u, .char hslash hquote hbreak.1 hbreak.2 hs,
        .inr ⟨rfl, hu, hchar.trans heq⟩⟩

theorem skipLineComment_eq (hn : '\n' ∉ s) (hr : '\r' ∉ s) (hu : AtBreak u) :
    skipLineComment (s ++ u) = u := by
  induction s with
  | nil =>
    cases u with
    | nil => exact absurd hu id
    | cons c u => rcases hu with rfl | rfl <;> rfl
  | cons c s ih =>
    rw [List.mem_cons, not_or] at hn hr
    have hc : ['\n', '\r'].contains c = false := by simp [Ne.symm hn.1, Ne.symm hr.1]
    have hpass : skipLineComment (c :: (s ++ u)) = skipLineComment (s ++ u) := by
      unfold skipLineComment seekAny
      rw [List.dropWhile_cons, hc]
      rfl
    rw [List.cons_append, hpass, ih hn.2 hr.2]

/-- A line comment ends at the end of its line, or nowhere. -/
theorem skipLineComment_cases (t : Text) :
    skipLineComment t = [] ∨
      ∃ s, '\n' ∉ s ∧ '\r' ∉ s ∧ AtBreak (skipLineComment t) ∧ t = s ++ skipLineComment t := by
  induction t with
  | nil => exact .inl rfl
  | cons c t ih =>
    by_cases hc : c = '\n' ∨ c = '\r'
    · have hstop : skipLineComment (c :: t) = c :: t := by rcases hc with rfl | rfl <;> rfl
      rw [hstop]
      exact .inr ⟨[], List.not_mem_nil, List.not_mem_nil, hc, rfl⟩
    rw [not_or] at hc
    have hpass : skipLineComment (c :: t) = skipLineComment t := by
      unfold skipLineComment seekAny
      rw [List.dropWhile_cons, if_pos]
      simp [hc.1, hc.2]
    rw [hpass]
    rcases ih with hnone | ⟨s, hn, hr, hbreak, heq⟩
    · exact .inl hnone
    · refine .inr ⟨c :: s, ?_, ?_, hbreak, by rw [List.cons_append, ← heq]⟩
      · simp [Ne.symm hc.1, hn]
      · simp [Ne.symm hc.2, hr]

theorem seekTo_pass {beginning : Text} (h : startsWith beginning (c :: t) ≠ true) :
    seekTo beginning (c :: t) = seekTo beginning t := by
  rw [seekTo, seek, if_neg h]

theorem startsWith_closing_iff :
    startsWith ['*', '/'] (c :: t) = true ↔ c = '*' ∧ ∃ u, t = '/' :: u := by
  rw [startsWith_iff]
  constructor
  · rintro ⟨u, heq⟩
    obtain ⟨rfl, rfl⟩ := List.cons.inj heq
    exact ⟨rfl, u, rfl⟩
  · rintro ⟨rfl, u, rfl⟩
    exact ⟨u, rfl⟩

theorem skipBlockComment_eq (hs : ¬ ['*', '/'] <:+: s) (u : Text) :
    skipBlockComment (s ++ '*' :: '/' :: u) = u := by
  induction s with
  | nil => rfl
  | cons c s ih =>
    have htail : ¬ ['*', '/'] <:+: s := fun h => hs (h.trans (List.suffix_cons c s).isInfix)
    have hpass : startsWith ['*', '/'] (c :: (s ++ '*' :: '/' :: u)) ≠ true := by
      rw [ne_eq, startsWith_closing_iff]
      rintro ⟨rfl, v, heq⟩
      cases s with
      | nil => simp at heq
      | cons d s =>
        obtain ⟨rfl, _⟩ := List.cons.inj heq
        exact hs ⟨[], s, rfl⟩
    have hskip : skipBlockComment (c :: (s ++ '*' :: '/' :: u))
        = skipBlockComment (s ++ '*' :: '/' :: u) := by
      unfold skipBlockComment
      rw [seekTo_pass hpass]
    rw [List.cons_append, hskip, ih htail]

/-- A block comment ends at the first of its closing marks, or nowhere. -/
theorem skipBlockComment_cases (t : Text) :
    skipBlockComment t = [] ∨
      ∃ s, ¬ ['*', '/'] <:+: s ∧ t = s ++ '*' :: '/' :: skipBlockComment t := by
  induction t with
  | nil => exact .inl rfl
  | cons c t ih =>
    by_cases hhere : startsWith ['*', '/'] (c :: t) = true
    · obtain ⟨rfl, u, rfl⟩ := startsWith_closing_iff.1 hhere
      exact .inr ⟨[], by simp, rfl⟩
    have hpass : skipBlockComment (c :: t) = skipBlockComment t := by
      unfold skipBlockComment
      rw [seekTo_pass hhere]
    rw [hpass]
    rcases ih with hnone | ⟨s, hs, heq⟩
    · exact .inl hnone
    · refine .inr ⟨c :: s, ?_, by rw [List.cons_append, ← heq]⟩
      -- the marks cannot stand at the front either, since the text does not begin with them
      intro hinfix
      rcases List.infix_cons_iff.1 hinfix with ⟨v, hv⟩ | hinfix
      · rw [startsWith_closing_iff] at hhere
        obtain ⟨rfl, hrest⟩ := List.cons.inj hv
        subst hrest
        exact hhere ⟨rfl, _, heq⟩
      · exact hs hinfix

/-! ## The readers accept the grammar -/

/-- The reader of what is enclosed, behind the opening mark. -/
def skipIn : Enclosure → Text → Option Text
  | .braces => skipBraces
  | .backquotes => skipTemplate

theorem skipBraces_nil : skipBraces [] = none := rfl

theorem skipBraces_close (t : Text) : skipBraces ('}' :: t) = some t := by
  have hhere : startsWith ['}'] ('}' :: t) = true := startsWith_iff.2 ⟨t, rfl⟩
  unfold skipBraces
  rw [skipUntil_step List.mem_cons_self, untilStep_cons, if_pos hhere]
  rfl

/-- A step in braces: over a form, or else over a character. -/
theorem skipBraces_step (h : c ≠ '}') (t : Text) :
    skipBraces (c :: t) = skipBraces ((skipForm (c :: t)).getD t) := by
  have hnot : ¬ startsWith ['}'] (c :: t) = true := by
    rw [startsWith_iff]
    rintro ⟨u, heq⟩
    exact h (List.cons.inj heq).1
  unfold skipBraces
  rw [skipUntil_step List.mem_cons_self, untilStep_cons, if_neg hnot]
  rfl

theorem skipBraces_over (h : skipForm t = some u) : skipBraces t = skipBraces u := by
  cases t with
  | nil => simp [skipForm, skipFormWith] at h
  | cons c t =>
    have hc : c ≠ '}' := by
      rintro rfl
      simp [skipForm, skipFormWith] at h
    rw [skipBraces_step hc, h]
    rfl

theorem skipTemplate_close (t : Text) : skipTemplate ('\x60' :: t) = some t :=
  skipTemplate_step _

theorem skipTemplate_escape (c : Char) (t : Text) :
    skipTemplate ('\\' :: c :: t) = skipTemplate t := skipTemplate_step _

theorem skipTemplate_hole (t : Text) :
    skipTemplate ('$' :: '{' :: t) = (skipBraces t).bind skipTemplate := skipTemplate_step _

theorem skipTemplate_letter (hslash : c ≠ '\\') (hquote : c ≠ '\x60')
    (hhole : opensHole (c :: t) = false) : skipTemplate (c :: t) = skipTemplate t := by
  rw [skipTemplate_step]
  unfold templateStep
  split <;> simp_all [opensHole, pairAt]

theorem skipForm_quote (hq : IsQuote q) (t : Text) :
    skipForm (q :: t) = some (skipString q t).2 := by
  rcases hq with rfl | rfl <;> rfl

/-- A form begins exactly where a mark stands that is no closing brace, or a comment begins. -/
theorem skipForm_eq_none_iff :
    skipForm (c :: t) = none ↔ c = '}' ∨ isMark c = false ∧ opensComment (c :: t) = false := by
  unfold skipForm skipFormWith isMark opensComment pairAt
  split <;> simp_all
  grind

theorem pairAt_append {p : Char → Char → Bool} (h : pairAt p (c :: b) = false)
    (hq : p c q = false) (t : Text) : pairAt p (c :: (b ++ q :: t)) = false := by
  cases b with
  | nil => exact hq
  | cons d b => exact h

theorem eq_of_opensHole (h : opensHole (c :: t) = true) : c = '$' ∧ ∃ u, t = '{' :: u := by
  cases t with
  | nil => simp [opensHole, pairAt] at h
  | cons d t =>
    simp only [opensHole, pairAt, Bool.and_eq_true, beq_iff_eq] at h
    exact ⟨h.1, t, by rw [h.2]⟩

theorem pairAt_of_append {p : Char → Char → Bool} (h : pairAt p (c :: (b ++ t)) = false) :
    pairAt p (c :: b) = false := by
  cases b with
  | nil => rfl
  | cons d b => exact h

theorem Flat.skipForm_eq (h : Flat f u) : skipForm (f ++ u) = some u := by
  cases h with
  | @string q s _ hq hs =>
    rw [List.append_assoc, List.cons_append, skipForm_quote hq, hs.skipString_eq,
      List.singleton_append,
      skipString_quote hq]
  | @cutString q s _ hq hs hu =>
    rw [List.cons_append, skipForm_quote hq, hs.skipString_eq, skipString_break hq hu]
  | @lineComment s _ hn hr hu => exact congrArg some (skipLineComment_eq hn hr hu)
  | @blockComment s _ hs =>
    rw [List.append_assoc]
    exact congrArg some (skipBlockComment_eq hs u)

/-- **What is enclosed is read to its end**, whatever follows the closing mark. -/
theorem Enclosed.skipIn_eq (h : Enclosed w b) (r : Text) :
    skipIn w (b ++ w.mark :: r) = some r := by
  induction h generalizing r with
  | @nil w =>
    cases w with
    | braces => exact skipBraces_close r
    | backquotes => exact skipTemplate_close r
  | @char c b hmark hcomment _ ih =>
    have hbrace : c ≠ '}' := by
      rintro rfl
      exact absurd hmark (by decide)
    have hnone : skipForm (c :: (b ++ '}' :: r)) = none :=
      skipForm_eq_none_iff.2 (.inr ⟨hmark, pairAt_append hcomment (by simp) r⟩)
    have hstep := skipBraces_step hbrace (b ++ '}' :: r)
    rw [hnone] at hstep
    exact hstep.trans (ih r)
  | @flat f b hf _ ih =>
    have hform : skipForm (f ++ (b ++ '}' :: r)) = some (b ++ '}' :: r) :=
      (hf.congr fun hbreak => hbreak.append _).skipForm_eq
    rw [List.append_assoc]
    exact (skipBraces_over hform).trans (ih r)
  | @template s b _ _ ihs ihb =>
    have hform : skipForm (('\x60' :: s ++ ['\x60']) ++ (b ++ '}' :: r))
        = some (b ++ '}' :: r) := by
      rw [List.append_assoc]
      exact congrArg (fun o => some (o.getD [])) (ihs (b ++ '}' :: r))
    rw [List.append_assoc]
    exact (skipBraces_over hform).trans (ihb r)
  | @group a b _ _ iha ihb =>
    have hform : skipForm (('{' :: a ++ ['}']) ++ (b ++ '}' :: r)) = some (b ++ '}' :: r) := by
      rw [List.append_assoc]
      exact congrArg (fun o => some (o.getD [])) (iha (b ++ '}' :: r))
    rw [List.append_assoc]
    exact (skipBraces_over hform).trans (ihb r)
  | @letter c s hslash hquote hhole _ ih =>
    exact (skipTemplate_letter hslash hquote
      (pairAt_append hhole (by simp [Enclosure.mark]) r)).trans (ih r)
  | @escape c s _ ih => exact (skipTemplate_escape c _).trans (ih r)
  | @hole b s _ _ ihb ihs =>
    have hgroup : skipBraces (b ++ '}' :: (s ++ '\x60' :: r)) = some (s ++ '\x60' :: r) := ihb _
    have htext : ('$' :: '{' :: b ++ ['}']) ++ s ++ Enclosure.mark .backquotes :: r
        = '$' :: '{' :: (b ++ '}' :: (s ++ '\x60' :: r)) := by
      simp [Enclosure.mark]
    rw [htext]
    show skipTemplate _ = some r
    rw [skipTemplate_hole, hgroup]
    exact ihs r

/-- A form is stepped over as a whole. -/
theorem Form.skipForm_eq (h : Form f u) : skipForm (f ++ u) = some u := by
  cases h with
  | flat hf => exact hf.skipForm_eq
  | @template s _ hs =>
    rw [List.append_assoc]
    exact congrArg (fun o => some (o.getD [])) (hs.skipIn_eq u)
  | @group b _ hb =>
    rw [List.append_assoc]
    exact congrArg (fun o => some (o.getD [])) (hb.skipIn_eq u)

/-! ## The readers accept nothing else -/

/-- What is stepped over is a form, unless all is spent, given that what it encloses is in the
grammar. -/
theorem exists_form (h : skipForm t = some u) (hu : u ≠ [])
    (ih : ∀ w v r, Advances t v → skipIn w v = some r →
      ∃ b, Enclosed w b ∧ v = b ++ w.mark :: r) :
    ∃ f, Form f u ∧ t = f ++ u := by
  have hstring (q : Char) (v : Text) (hq : IsQuote q) (h : some (skipString q v).2 = some u) :
      ∃ f, Form f u ∧ q :: v = f ++ u := by
    obtain rfl := Option.some.inj h
    rcases skipString_cases hq v with hnone | ⟨s, v', hs, ⟨rfl, heq⟩ | ⟨rfl, hbreak, heq⟩⟩
    · exact absurd (by rw [hnone]) hu
    · rw [heq]
      exact ⟨q :: s ++ [q], .flat (.string hq hs), by simp⟩
    · rw [heq]
      exact ⟨q :: s, .flat (.cutString hq hs hbreak), rfl⟩
  unfold skipForm skipFormWith at h
  split at h
  · next v =>
    obtain rfl := Option.some.inj h
    rcases skipLineComment_cases v with hnone | ⟨s, hn, hr, hbreak, heq⟩
    · exact absurd hnone hu
    · exact ⟨'/' :: '/' :: s, .flat (.lineComment hn hr hbreak), congrArg ('/' :: '/' :: ·) heq⟩
  · next v =>
    obtain rfl := Option.some.inj h
    rcases skipBlockComment_cases v with hnone | ⟨s, hs, heq⟩
    · exact absurd hnone hu
    · refine ⟨'/' :: '*' :: s ++ ['*', '/'], .flat (.blockComment hs), ?_⟩
      rw [List.append_assoc]
      exact congrArg ('/' :: '*' :: ·) heq
  · next v => exact hstring '\'' v (.inl rfl) h
  · next v => exact hstring '"' v (.inr rfl) h
  · next v =>
    cases hread : skipTemplate v with
    | none =>
      rw [hread] at h
      exact absurd (Option.some.inj h).symm hu
    | some r =>
      rw [hread] at h
      obtain rfl := Option.some.inj h
      obtain ⟨s, hs, rfl⟩ := ih .backquotes v _ (.cons (List.suffix_refl v)) hread
      exact ⟨'\x60' :: s ++ ['\x60'], .template hs, by simp [Enclosure.mark]⟩
  · next v =>
    cases hread : skipBraces v with
    | none =>
      rw [hread] at h
      exact absurd (Option.some.inj h).symm hu
    | some r =>
      rw [hread] at h
      obtain rfl := Option.some.inj h
      obtain ⟨b, hb, rfl⟩ := ih .braces v _ (.cons (List.suffix_refl v)) hread
      exact ⟨'{' :: b ++ ['}'], .group hb, by simp [Enclosure.mark]⟩
  · exact absurd h (by simp)

/-- One step of the reader of braces, and the rest as it is read further on. -/
theorem exists_enclosed_braces (h : skipBraces t = some r)
    (ih : ∀ w v r, Advances t v → skipIn w v = some r →
      ∃ b, Enclosed w b ∧ v = b ++ w.mark :: r) :
    ∃ b, Enclosed .braces b ∧ t = b ++ '}' :: r := by
  cases t with
  | nil => simp [skipBraces_nil] at h
  | cons c t =>
    by_cases hbrace : c = '}'
    · subst hbrace
      rw [skipBraces_close] at h
      obtain rfl := Option.some.inj h
      exact ⟨[], .nil, rfl⟩
    rw [skipBraces_step hbrace] at h
    cases hform : skipForm (c :: t) with
    | some u =>
      rw [hform] at h
      change skipBraces u = some r at h
      have hu : u ≠ [] := by
        rintro rfl
        simp [skipBraces_nil] at h
      obtain ⟨f, hf, htext⟩ := exists_form hform hu ih
      obtain ⟨b, hb, rfl⟩ := ih .braces u r (skipForm_advances hform) h
      refine ⟨f ++ b, ?_, by rw [htext, List.append_assoc]; rfl⟩
      exact (hf.congr fun hbreak => hbreak.of_append (by simp [AtBreak, Enclosure.mark])).enclosed hb
    | none =>
      rw [hform] at h
      obtain ⟨b, hb, rfl⟩ := ih .braces t r (.cons (List.suffix_refl t)) h
      obtain ⟨hmark, hcomment⟩ := (skipForm_eq_none_iff.1 hform).resolve_left hbrace
      exact ⟨c :: b, .char hmark (pairAt_of_append hcomment) hb, rfl⟩

/-- The same in a template literal. -/
theorem exists_enclosed_backquotes (h : skipTemplate t = some r)
    (ih : ∀ w v r, Advances t v → skipIn w v = some r →
      ∃ b, Enclosed w b ∧ v = b ++ w.mark :: r) :
    ∃ s, Enclosed .backquotes s ∧ t = s ++ '\x60' :: r := by
  cases t with
  | nil => exact absurd h (by simp [skipTemplate_step, templateStep])
  | cons c t =>
    by_cases hquote : c = '\x60'
    · subst hquote
      rw [skipTemplate_close] at h
      obtain rfl := Option.some.inj h
      exact ⟨[], .nil, rfl⟩
    by_cases hslash : c = '\\'
    · subst hslash
      cases t with
      | nil =>
        rw [show skipTemplate ['\\'] = none by decide] at h
        exact absurd h (by simp)
      | cons d t =>
        rw [skipTemplate_escape] at h
        obtain ⟨s, hs, rfl⟩ := ih .backquotes t r (.cons (List.suffix_cons d t)) h
        exact ⟨'\\' :: d :: s, .escape hs, rfl⟩
    by_cases hhole : opensHole (c :: t) = true
    · obtain ⟨rfl, t, rfl⟩ := eq_of_opensHole hhole
      rw [skipTemplate_hole] at h
      obtain ⟨v, hgroup, hrest⟩ := Option.bind_eq_some_iff.1 h
      have hstep : Advances ('$' :: '{' :: t) t := .cons (List.suffix_cons _ t)
      obtain ⟨b, hb, rfl⟩ := ih .braces t v hstep hgroup
      obtain ⟨s, hs, rfl⟩ := ih .backquotes v r
        (hstep.of_suffix (skipBraces_suffix _ _ hgroup)) hrest
      exact ⟨('$' :: '{' :: b ++ ['}']) ++ s, .hole hb hs, by simp [Enclosure.mark]⟩
    · have hhole' : opensHole (c :: t) = false := by simpa using hhole
      rw [skipTemplate_letter hslash hquote hhole'] at h
      obtain ⟨s, hs, rfl⟩ := ih .backquotes t r (.cons (List.suffix_refl t)) h
      exact ⟨c :: s, .letter hslash hquote (pairAt_of_append hhole') hs, rfl⟩

/-- **What is read to an end is enclosed.** -/
theorem exists_enclosed (h : skipIn w t = some r) :
    ∃ b, Enclosed w b ∧ t = b ++ w.mark :: r := by
  induction hn : t.length using Nat.strongRecOn generalizing w t r with
  | ind n ih =>
    subst hn
    have hrest (w : Enclosure) (v r : Text) (hstep : Advances t v) (hread : skipIn w v = some r) :
        ∃ b, Enclosed w b ∧ v = b ++ w.mark :: r := ih v.length hstep.shorter hread rfl
    cases w with
    | braces => exact exists_enclosed_braces h hrest
    | backquotes => exact exists_enclosed_backquotes h hrest

/-- **The readers accept the grammar and nothing else.** -/
theorem skipIn_iff : skipIn w t = some r ↔ ∃ b, Enclosed w b ∧ t = b ++ w.mark :: r := by
  constructor
  · exact exists_enclosed
  · rintro ⟨b, hb, rfl⟩
    exact hb.skipIn_eq r

/-- **A text begins with at most one enclosed part that is closed there.** -/
theorem Enclosed.unique {b' r' : Text} (h : Enclosed w b) (h' : Enclosed w b')
    (heq : b ++ w.mark :: r = b' ++ w.mark :: r') : b = b' ∧ r = r' := by
  have hread := h.skipIn_eq r
  rw [heq, h'.skipIn_eq r'] at hread
  obtain rfl := Option.some.inj hread
  exact ⟨List.append_cancel_right heq, rfl⟩

/-- Where a form is stepped over and something is left, it is a form of the grammar. -/
theorem exists_form_of_skipForm (h : skipForm t = some u) (hu : u ≠ []) :
    ∃ f, Form f u ∧ t = f ++ u :=
  exists_form h hu fun _ _ _ _ hread => exists_enclosed hread

end HostCode

/-! ## Expressions that are not closed -/

namespace Scanner

/-- An expression that is not closed takes all that is left. -/
theorem Within.stop_of_openExpression {text : Text} {s : Scanner} (h : s.Within text)
    (hkind : s.scan.1.kind = .blockExpression) (herror : s.scan.1.error ≠ none) :
    s.scan.1.span.stop = size text := by
  have hrest : s.rest ≠ [] := by
    intro hnil
    rw [(scan_kind_eq_eos_iff s).2 hnil] at hkind
    exact absurd hkind (by decide)
  obtain ⟨m, kind, error, rest, m', _, hyields, hscan⟩ := scan_before_end hrest
  have hspent : s.scan.2.rest = [] := by
    rw [hscan] at hkind herror ⊢
    change kind = .blockExpression at hkind
    change error ≠ none at herror
    subst hkind
    cases hyields with
    | closedExpression => exact absurd rfl herror
    | openExpression => rfl
  rw [s.scan_span.1]
  exact h.scan.offset_eq_size_iff.2 hspent

end Scanner

namespace HostCode

/-- **What the reader of groups accepts.** Behind an opening brace the loop succeeds exactly where
the text begins with enclosed code and a closing brace; there is only one such beginning, and behind
it the cursor stops. Otherwise the loop fails with the cursor at the end of the text, and so an
expression that is reported as not closed reaches the end of the document. -/
theorem overBraces_iff_enclosed (dialect : Dialect) (text t : Text) :
    Loop.overBraces t = ending (skipBraces t) ∧
      (∀ r, Loop.overBraces t = (true, r) ↔ ∃ b, Enclosed .braces b ∧ t = b ++ '}' :: r) ∧
      ((∃ b, Enclosed .braces b ∧ b ++ ['}'] <+: t ∧
          ∀ b', Enclosed .braces b' → b' ++ ['}'] <+: t → b' = b) ∨
        Loop.overBraces t = (false, [])) ∧
      ∀ k ∈ tokenize dialect text, k.kind = .blockExpression → k.error ≠ none →
        k.span.stop = size text := by
  have hloop := Loop.overBraces_eq t
  refine ⟨hloop, fun r => ?_, ?_, fun k hk hkind herror => ?_⟩
  · rw [hloop, Loop.ending_eq_true_iff]
    exact skipIn_iff (w := .braces)
  · cases hread : skipBraces t with
    | none =>
      right
      rw [hloop, hread]
      rfl
    | some r =>
      left
      obtain ⟨b, hb, htext⟩ := exists_enclosed (w := .braces) hread
      refine ⟨b, hb, ⟨r, by rw [htext]; simp [Enclosure.mark]⟩, ?_⟩
      rintro b' hb' ⟨r', htext'⟩
      have hsame : b' ++ Enclosure.braces.mark :: r' = b ++ Enclosure.braces.mark :: r := by
        rw [← htext, ← htext']
        simp [Enclosure.mark]
      exact (hb'.unique hb hsame).1
  · obtain ⟨s, hs, rfl⟩ := Scanner.exists_of_mem_tokensIn (fun s h => Scanner.Within.scan h)
      (Scanner.start_within dialect text) hk
    exact hs.stop_of_openExpression hkind herror

/-- A brace in a string closes nothing. Where the brace behind the string is missing, the expression
is reported and reaches the end. -/
theorem overBraces_iff_enclosed_string :
    Loop.overBraces "a '\x7d' \x7d b".toList = (true, " b".toList) ∧
      ∃ k ∈ tokenize .mdx "\x7ba '\x7d' b".toList, k.kind = .blockExpression ∧ k.error ≠ none ∧
        k.span.stop = size "\x7ba '\x7d' b".toList := by
  obtain ⟨_, hclosed, _, hopen⟩ :=
    overBraces_iff_enclosed .mdx "\x7ba '\x7d' b".toList "a '\x7d' \x7d b".toList
  have hstring : Flat "'\x7d'".toList " ".toList :=
    .string (.inl rfl) (.char (by decide) (by decide) (by decide) (by decide) .nil)
  have henclosed : Enclosed .braces "a '\x7d' ".toList :=
    .char rfl rfl (.char rfl rfl (.flat hstring (.char rfl rfl .nil)))
  let k : Token :=
    { kind := .blockExpression, span := ⟨0, 8⟩, lexeme := "\x7ba '\x7d' b".toList,
      error := some .expressionUnterminated }
  have hk : k ∈ tokenize .mdx "\x7ba '\x7d' b".toList := by decide +kernel
  refine ⟨(hclosed _).2 ⟨_, henclosed, rfl⟩, k, hk, rfl, by decide, hopen k hk rfl (by decide)⟩

end HostCode

end HybridMarkup
