/-
What the readers leave of a text.

A reader takes a text and answers the text that is left, and everything the scanner promises about
the tokens of a document rests on two facts about that answer. It is an end of the text that was
given, so nothing is skipped over or read twice; and wherever the scanner asks a reader to step over
something, at least one character is gone, so every loop comes to its end. `Text.Advances` is the
two facts together.

The first half of this file goes through the readers in the order of the modules that define them:
texts, the lexical forms of the host language, elements in code, imports, the bodies of script and
style elements. The second half settles the fuel. The readers that recurse through each other count
down from the length of the text, and since every round advances, any larger amount of fuel gives
the same answer (`skipUntilIn_eq_skipUntil` and its companions), so the count is not part of what
they do.
-/
import HybridMarkup.RawElement

set_option autoImplicit false

namespace HybridMarkup

/-! ## Reading on -/

/-- Something of `t` has been read, and `rest` is what is left of it. -/
structure Text.Advances (t rest : Text) : Prop where
  suffix : rest <:+ t
  shorter : rest.length < t.length

namespace Text

theorem Advances.cons {c : Char} {t rest : Text} (h : rest <:+ t) : Advances (c :: t) rest :=
  ⟨h.trans (List.suffix_cons c t), by have := h.length_le; simp only [List.length_cons]; omega⟩

/-- Whatever is read behind a step forward, the two together are a step forward. -/
theorem Advances.of_suffix {t u rest : Text} (h : Advances t u) (hs : rest <:+ u) :
    Advances t rest :=
  ⟨hs.trans h.suffix, by have := hs.length_le; have := h.shorter; omega⟩

/-- A step forward from a later place is one from an earlier place. -/
theorem Advances.from_suffix {t u rest : Text} (hs : u <:+ t) (h : Advances u rest) :
    Advances t rest :=
  ⟨h.suffix.trans hs, by have := hs.length_le; have := h.shorter; omega⟩

/-- A suffix that is not the text itself is a step forward. -/
theorem Advances.of_ne {t rest : Text} (hs : rest <:+ t) (hne : rest ≠ t) : Advances t rest := by
  refine ⟨hs, ?_⟩
  rcases Nat.lt_or_ge rest.length t.length with h | h
  · exact h
  · exact absurd (hs.eq_of_length_le h) hne

theorem advances_append {part rest : Text} (h : part ≠ []) : Advances (part ++ rest) rest := by
  refine ⟨List.suffix_append part rest, ?_⟩
  have := List.length_pos_iff.2 h
  rw [List.length_append]
  omega

theorem nil_advances {t : Text} (h : t ≠ []) : Advances t [] :=
  ⟨List.nil_suffix, List.length_pos_iff.2 h⟩

/-! ## Texts -/

theorem passWhile?_advances {p : Char → Bool} {t rest : Text} (h : passWhile? p t = some rest) :
    Advances t rest := by
  cases t with
  | nil => simp [passWhile?] at h
  | cons c t =>
    by_cases hc : p c
    · simp only [passWhile?, hc, if_true, Option.some.injEq] at h
      rw [← h]
      exact Advances.cons (List.dropWhile_suffix p)
    · simp [passWhile?, hc] at h

theorem passWhile?_eq_none {p : Char → Bool} {c : Char} {t : Text}
    (h : passWhile? p (c :: t) = none) : p c = false := by
  by_cases hc : p c
  · simp [passWhile?, hc] at h
  · simpa using hc

theorem strip?_advances {beginning t rest : Text} (hb : beginning ≠ [])
    (h : strip? beginning t = some rest) : Advances t rest := by
  rw [strip?_eq_some.1 h]
  exact advances_append hb

theorem startsWith_iff {beginning t : Text} :
    startsWith beginning t = true ↔ ∃ rest, t = beginning ++ rest := by
  simp only [startsWith, Option.isSome_iff_exists, strip?_eq_some]

theorem seek_advances {stop : Text → Bool} {t : Text} (ht : t ≠ []) (h : stop t = false) :
    Advances t (seek stop t) := by
  cases t with
  | nil => exact absurd rfl ht
  | cons c t =>
    simp only [seek, h, Bool.false_eq_true, if_false]
    exact Advances.cons (seek_suffix stop t)

theorem seekAny_suffix (chars : List Char) (t : Text) : seekAny chars t <:+ t :=
  List.dropWhile_suffix _

theorem seekAny_advances {chars : List Char} {c : Char} {t : Text} (h : chars.contains c = false) :
    Advances (c :: t) (seekAny chars (c :: t)) := by
  simp only [seekAny, List.dropWhile_cons, h, Bool.not_false, if_true]
  exact Advances.cons (seekAny_suffix chars t)

end Text

open Text

namespace HostCode

/-! ## Strings and comments -/

theorem skipString_suffix (quote : Char) (t : Text) : (skipString quote t).2 <:+ t := by
  induction t using skipString.induct quote with
  | case1 => simp [skipString]
  | case2 => simp [skipString]
  | case3 c t ih =>
    simp only [skipString]
    exact ih.trans ((List.suffix_cons c t).trans (List.suffix_cons _ _))
  | case4 t h1 h2 => grind [skipString, List.suffix_cons]
  | case5 c t h1 h2 h3 h4 => grind [skipString, List.suffix_refl]
  | case6 c t h1 h2 h3 h4 ih =>
    have heq : skipString quote (c :: t) = skipString quote t := by grind [skipString]
    rw [heq]
    exact ih.trans (List.suffix_cons c t)

theorem skipLineComment_suffix (t : Text) : skipLineComment t <:+ t := seekAny_suffix _ t

theorem skipBlockComment_suffix (t : Text) : skipBlockComment t <:+ t :=
  (List.drop_suffix 2 _).trans (seek_suffix _ t)

/-! ## The recursive forms

A round of a reader leaves what is still to come to other readers, so each lemma about a round is
about any readers that keep to the text they are given; the amounts of fuel are the case that is
needed. -/

/-- Whatever the reader leaves is an end of the text it was given. -/
def LeavesSuffix (reader : Text → Option Text) : Prop :=
  ∀ t rest, reader t = some rest → rest <:+ t

theorem LeavesSuffix.getD {reader : Text → Option Text} (h : LeavesSuffix reader) (t : Text) :
    (reader t).getD [] <:+ t := by
  cases hr : reader t with
  | none => exact List.nil_suffix
  | some rest => exact h t rest hr

theorem afterBrace_advances {t rest : Text} (h : afterBrace t = some rest) : Advances t rest := by
  unfold afterBrace at h
  split at h
  · rw [Option.some.injEq] at h
    rw [← h]
    exact .cons (List.suffix_refl _)
  · simp at h

theorem LeavesSuffix.bind_afterBrace {reader : Text → Option Text} (h : LeavesSuffix reader) :
    LeavesSuffix fun t => (reader t).bind afterBrace := by
  intro t rest hr
  obtain ⟨u, hu, hb⟩ := Option.bind_eq_some_iff.1 hr
  exact (afterBrace_advances hb).suffix.trans (h t u hu)

theorem skipFormWith_advances {template group : Text → Option Text} (ht : LeavesSuffix template)
    (hg : LeavesSuffix group) {t rest : Text} (h : skipFormWith template group t = some rest) :
    Advances t rest := by
  unfold skipFormWith at h
  split at h
  case h_7 => simp at h
  all_goals
    rw [Option.some.injEq] at h
    subst h
  · exact .cons ((skipLineComment_suffix _).trans (List.suffix_cons _ _))
  · exact .cons ((skipBlockComment_suffix _).trans (List.suffix_cons _ _))
  · exact .cons (skipString_suffix _ _)
  · exact .cons (skipString_suffix _ _)
  · exact .cons (ht.getD _)
  · exact .cons (hg.getD _)

/-- Where neither a form nor a stray brace begins, there is nothing to halt at. -/
theorem skipFormWith_eq_none {template group : Text → Option Text} {t : Text}
    (h : skipFormWith template group t = none) (hb : ∀ u, t ≠ '}' :: u) : atStop t = false := by
  unfold skipFormWith at h
  split at h
  case h_7 h1 h2 h3 h4 h5 h6 =>
    unfold atStop
    split
    case h_7 => exact absurd rfl (hb _)
    all_goals simp_all
  all_goals simp at h

theorem templateRound_suffix {group next : Text → Option Text} (hg : LeavesSuffix group)
    (hn : LeavesSuffix next) : LeavesSuffix (templateRound group next) := by
  intro t rest h
  have hs : seekAny ['\\', '\x60', '$'] t <:+ t := seekAny_suffix _ t
  unfold templateRound at h
  split at h
  · simp at h
  · next u hu =>
    rw [hu] at hs
    exact (hn _ _ h).trans ((List.drop_suffix 1 u).trans ((List.suffix_cons _ u).trans hs))
  · next u hu =>
    rw [Option.some.injEq] at h
    rw [hu] at hs
    rw [← h]
    exact (List.suffix_cons _ u).trans hs
  · next u hu =>
    rw [hu] at hs
    obtain ⟨v, hv, hr⟩ := Option.bind_eq_some_iff.1 h
    exact (hn _ _ hr).trans ((hg u v hv).trans
      ((List.suffix_cons _ u).trans ((List.suffix_cons _ _).trans hs)))
  · next c u _ _ _ hu =>
    rw [hu] at hs
    exact (hn _ _ h).trans ((List.suffix_cons c u).trans hs)

theorem untilRound_suffix {template group next : Text → Option Text} (ht : LeavesSuffix template)
    (hg : LeavesSuffix group) (hn : LeavesSuffix next) (terminator : Text) :
    LeavesSuffix (untilRound template group next terminator) := by
  intro t rest h
  unfold untilRound at h
  split at h
  · rw [Option.some.injEq] at h
    exact h ▸ List.suffix_refl t
  · split at h
    · next u hu => exact (hn _ _ h).trans (skipFormWith_advances ht hg hu).suffix
    · split at h
      · exact (hn _ _ h).trans (List.suffix_cons _ _)
      · split at h
        · simp at h
        · exact (hn _ _ h).trans (seek_suffix _ _)

/-- The two readers that call each other, at any amount of fuel. -/
theorem skipIn_suffix (fuel : Nat) :
    LeavesSuffix (skipTemplateIn fuel) ∧
      ∀ terminator, LeavesSuffix (skipUntilIn fuel terminator) := by
  induction fuel with
  | zero => exact ⟨fun t rest h => by simp [skipTemplateIn] at h,
      fun terminator t rest h => by simp [skipUntilIn] at h⟩
  | succ fuel ih =>
    obtain ⟨iht, ihu⟩ := ih
    have hgroup := (ihu ['}']).bind_afterBrace
    exact ⟨templateRound_suffix hgroup iht,
      fun terminator => untilRound_suffix iht hgroup (ihu terminator) terminator⟩

theorem skipTemplate_suffix : LeavesSuffix skipTemplate := fun t => (skipIn_suffix _).1 t

theorem skipUntil_suffix (terminator : Text) : LeavesSuffix (skipUntil terminator) :=
  fun t => (skipIn_suffix _).2 terminator t

theorem skipBraces_suffix : LeavesSuffix skipBraces := (skipUntil_suffix ['}']).bind_afterBrace

theorem skipForm_advances {t rest : Text} (h : skipForm t = some rest) : Advances t rest :=
  skipFormWith_advances skipTemplate_suffix skipBraces_suffix h

/-- A form as a whole, or else one character. -/
theorem skipForm_getD_advances (c : Char) (t : Text) :
    Advances (c :: t) ((skipForm (c :: t)).getD t) := by
  cases h : skipForm (c :: t) with
  | none => exact .cons (List.suffix_refl t)
  | some rest => exact skipForm_advances h

/-- The search for a terminator ends in front of one. -/
theorem skipUntilIn_startsWith (fuel : Nat) (terminator t rest : Text)
    (h : skipUntilIn fuel terminator t = some rest) : startsWith terminator rest = true := by
  induction fuel generalizing t with
  | zero => simp [skipUntilIn] at h
  | succ fuel ih =>
    unfold skipUntilIn untilRound at h
    split at h
    · next hs =>
      rw [Option.some.injEq] at h
      rw [← h]
      exact hs
    · split at h
      · exact ih _ h
      · split at h
        · exact ih _ h
        · split at h
          · simp at h
          · exact ih _ h

/-- Where the terminator does not stand already, the search for it takes a character at least; and
when there is none it takes all that is left. -/
theorem skipUntil_advances {terminator t : Text} (ht : t ≠ [])
    (h : startsWith terminator t = false) : Advances t ((skipUntil terminator t).getD []) := by
  cases hr : skipUntil terminator t with
  | none => exact nil_advances ht
  | some rest =>
    -- what is left begins with the terminator, and the text does not: so something was taken
    refine Advances.of_ne (skipUntil_suffix _ _ _ hr) fun heq => ?_
    have hrest : startsWith terminator rest = true := skipUntilIn_startsWith _ _ _ _ hr
    rw [Option.getD_some] at heq
    rw [heq, h] at hrest
    simp at hrest

/-! ## Elements in code -/

theorem jsxRound_suffix {next : JsxPlace → Nat → Text → Option Text}
    (hn : ∀ place around, LeavesSuffix (next place around)) (place : JsxPlace) (around : Nat) :
    LeavesSuffix (jsxRound next place around) := by
  intro t rest h
  cases t with
  | nil => simp [jsxRound] at h
  | cons c t =>
    cases place with
    | startTag =>
      simp only [jsxRound] at h
      split at h
      · next u heq =>
        rw [heq]
        have hu : u <:+ '/' :: '>' :: u := (List.suffix_cons _ u).trans (List.suffix_cons _ _)
        split at h
        · rw [Option.some.injEq] at h
          exact h ▸ hu
        · exact (hn _ _ _ _ h).trans hu
      · next u heq =>
        rw [heq]
        exact (hn _ _ _ _ h).trans (List.suffix_cons _ _)
      · split at h
        · next u hu => exact (hn _ _ _ _ h).trans (skipForm_advances hu).suffix
        · exact (hn _ _ _ _ h).trans (seek_suffix _ _)
    | content =>
      simp only [jsxRound] at h
      split at h
      · next u heq =>
        rw [heq]
        obtain ⟨v, hv, hr⟩ := Option.bind_eq_some_iff.1 h
        exact (hn _ _ _ _ hr).trans ((skipBraces_suffix u v hv).trans (List.suffix_cons _ u))
      · next u heq =>
        rw [heq]
        exact (hn _ _ _ _ h).trans ((List.suffix_cons _ u).trans (List.suffix_cons _ _))
      · next u _ heq =>
        rw [heq]
        exact (hn _ _ _ _ h).trans (List.suffix_cons _ _)
      · exact (hn _ _ _ _ h).trans (seekAny_suffix _ _)
    | endTag =>
      simp only [jsxRound] at h
      split at h
      · next u heq =>
        rw [heq]
        split at h
        · rw [Option.some.injEq] at h
          exact h ▸ List.suffix_cons _ u
        · exact (hn _ _ _ _ h).trans (List.suffix_cons _ u)
      · exact (hn _ _ _ _ h).trans (seekAny_suffix _ _)

theorem skipJsxIn_suffix (fuel : Nat) (place : JsxPlace) (around : Nat) :
    LeavesSuffix (skipJsxIn fuel place around) := by
  induction fuel generalizing place around with
  | zero => exact fun t rest h => by simp [skipJsxIn] at h
  | succ fuel ih => exact jsxRound_suffix ih place around

theorem skipJsx_suffix : LeavesSuffix skipJsx := fun t => skipJsxIn_suffix _ _ _ t

/-! ## Imports -/

/-- Behind the name of a module there may be a semicolon. -/
theorem moduleEnd_suffix (quote : Char) {t u : Text} (hu : u <:+ t) :
    (match skipString quote u with
      | (true, ';' :: rest) => (true, rest)
      | ending => ending).2 <:+ t := by
  have hsu := (skipString_suffix quote u).trans hu
  split
  · next rest heq =>
    rw [heq] at hsu
    exact (List.suffix_cons _ rest).trans hsu
  · exact hsu

theorem skipImport_suffix (t : Text) : (skipImport t).2 <:+ t := by
  have hs : seek atImportStop t <:+ t := seek_suffix _ t
  unfold skipImport
  split
  · next u hu => exact moduleEnd_suffix _ ((List.suffix_cons _ u).trans (hu ▸ hs))
  · next u hu => exact moduleEnd_suffix _ ((List.suffix_cons _ u).trans (hu ▸ hs))
  · exact hs

end HostCode

/-! ## The bodies of script and style elements -/

namespace RawElement

theorem skipBodyIn_suffix (e : RawElement) (fuel : Nat) (t : Text) : e.skipBodyIn fuel t <:+ t := by
  induction fuel generalizing t with
  | zero => exact List.nil_suffix
  | succ fuel ih =>
    have hs : seek e.atStop t <:+ t := seek_suffix _ t
    unfold skipBodyIn bodyRound
    split
    · exact List.nil_suffix
    · next c u hu =>
      rw [hu] at hs
      split
      · exact hs
      · exact (ih _).trans ((HostCode.skipForm_getD_advances c u).suffix.trans hs)

theorem skipBody_suffix (e : RawElement) (t : Text) : e.skipBody t <:+ t := e.skipBodyIn_suffix _ t

end RawElement

/-! ## Every loop comes to its end

What a round answers depends on the readers of what is still to come only at shorter texts: that is
said by the lemmas `…Round_congr`, and everything else follows. Fuel beyond the length of the text
makes no difference, so the readers satisfy the equations of their rounds without any fuel; and since
a loop that came back to the same text could be given any answer there, it is part of the same fact
that nothing else satisfies them. -/

namespace HostCode

theorem skipFormWith_congr {template template' group group' : Text → Option Text} {t : Text}
    (ht : ∀ u, Advances t u → template u = template' u)
    (hg : ∀ u, Advances t u → group u = group' u) :
    skipFormWith template group t = skipFormWith template' group' t := by
  unfold skipFormWith
  split
  case h_5 u => rw [ht u (.cons (List.suffix_refl u))]
  case h_6 u => rw [hg u (.cons (List.suffix_refl u))]
  all_goals rfl

theorem templateRound_congr {group group' next next' : Text → Option Text}
    (hs : LeavesSuffix group') {t : Text} (hg : ∀ u, Advances t u → group u = group' u)
    (hn : ∀ u, Advances t u → next u = next' u) :
    templateRound group next t = templateRound group' next' t := by
  have hseek : seekAny ['\\', '\x60', '$'] t <:+ t := seekAny_suffix _ t
  unfold templateRound
  split
  · rfl
  · next u hu => exact hn _ (.from_suffix (hu ▸ hseek) (.cons (List.drop_suffix 1 u)))
  · rfl
  · next u hu =>
    have hstep : Advances t u := .from_suffix (hu ▸ hseek) (.cons (List.suffix_cons _ u))
    rw [hg u hstep]
    cases hv : group' u with
    | none => rfl
    | some v => exact hn v (hstep.of_suffix (hs u v hv))
  · next c u _ _ _ hu => exact hn u (.from_suffix (hu ▸ hseek) (.cons (List.suffix_refl u)))

theorem untilRound_congr {template template' group group' next next' : Text → Option Text}
    (hst : LeavesSuffix template') (hsg : LeavesSuffix group') {t : Text}
    (ht : ∀ u, Advances t u → template u = template' u)
    (hg : ∀ u, Advances t u → group u = group' u) (hn : ∀ u, Advances t u → next u = next' u)
    (terminator : Text) :
    untilRound template group next terminator t =
      untilRound template' group' next' terminator t := by
  unfold untilRound
  split
  · rfl
  · rw [skipFormWith_congr ht hg]
    split
    · next u hu => exact hn u (skipFormWith_advances hst hsg hu)
    · next hnone =>
      -- a closing brace is skipped alone; anything else that is no form is skipped to the next stop
      by_cases hb : ∃ u, t = '}' :: u
      · obtain ⟨u, rfl⟩ := hb
        exact hn u (.cons (List.suffix_refl u))
      · have hstop : atStop t = false := skipFormWith_eq_none hnone fun u hu => hb ⟨u, hu⟩
        split
        · exact absurd ⟨_, rfl⟩ hb
        · split
          · rfl
          · next hne =>
            have hnil : t ≠ [] := by
              rintro rfl
              exact hne rfl
            exact hn _ (seek_advances hnil hstop)

theorem skipIn_congr (fuel fuel' : Nat) :
    (∀ t, t.length < fuel → t.length < fuel' → skipTemplateIn fuel t = skipTemplateIn fuel' t) ∧
      ∀ terminator t, t.length < fuel → t.length < fuel' →
        skipUntilIn fuel terminator t = skipUntilIn fuel' terminator t := by
  induction fuel generalizing fuel' with
  | zero =>
    exact ⟨fun t h => absurd h (Nat.not_lt_zero _), fun _ t h => absurd h (Nat.not_lt_zero _)⟩
  | succ fuel ih =>
    cases fuel' with
    | zero =>
      exact ⟨fun t _ h => absurd h (Nat.not_lt_zero _),
        fun _ t _ h => absurd h (Nat.not_lt_zero _)⟩
    | succ fuel' =>
      -- the two readers call each other, so both facts go through the induction together
      obtain ⟨iht, ihu⟩ := ih fuel'
      obtain ⟨hst, hsu⟩ := skipIn_suffix fuel'
      have hTemplate (t u : Text) (h : Advances t u) (hf : t.length < fuel + 1)
          (hf' : t.length < fuel' + 1) : skipTemplateIn fuel u = skipTemplateIn fuel' u :=
        iht u (by have := h.shorter; omega) (by have := h.shorter; omega)
      have hUntil (terminator t u : Text) (h : Advances t u) (hf : t.length < fuel + 1)
          (hf' : t.length < fuel' + 1) :
          skipUntilIn fuel terminator u = skipUntilIn fuel' terminator u :=
        ihu terminator u (by have := h.shorter; omega) (by have := h.shorter; omega)
      refine ⟨fun t hf hf' => ?_, fun terminator t hf hf' => ?_⟩
      · exact templateRound_congr (hsu ['}']).bind_afterBrace
          (fun u hu => by rw [hUntil _ t u hu hf hf']) (fun u hu => hTemplate t u hu hf hf')
      · exact untilRound_congr hst (hsu ['}']).bind_afterBrace
          (fun u hu => hTemplate t u hu hf hf') (fun u hu => by rw [hUntil _ t u hu hf hf'])
          (fun u hu => hUntil _ t u hu hf hf') terminator

/-- Fuel beyond the length of the text makes no difference to the search for a terminator. -/
theorem skipUntilIn_eq_skipUntil {fuel : Nat} {t : Text} (terminator : Text)
    (h : t.length < fuel) : skipUntilIn fuel terminator t = skipUntil terminator t :=
  (skipIn_congr fuel _).2 terminator t h (Nat.lt_succ_self _)

/-- The same for the rest of a template literal. -/
theorem skipTemplateIn_eq_skipTemplate {fuel : Nat} {t : Text} (h : t.length < fuel) :
    skipTemplateIn fuel t = skipTemplate t :=
  (skipIn_congr fuel _).1 t h (Nat.lt_succ_self _)

/-- A template literal, round by round. -/
theorem skipTemplate_eq (t : Text) : skipTemplate t = templateRound skipBraces skipTemplate t :=
  templateRound_congr skipBraces_suffix
    (fun u hu => by rw [skipUntilIn_eq_skipUntil _ hu.shorter]; rfl)
    (fun u hu => skipTemplateIn_eq_skipTemplate hu.shorter)

/-- The search for a terminator, round by round. -/
theorem skipUntil_eq (terminator t : Text) :
    skipUntil terminator t
      = untilRound skipTemplate skipBraces (skipUntil terminator) terminator t :=
  untilRound_congr skipTemplate_suffix skipBraces_suffix
    (fun u hu => skipTemplateIn_eq_skipTemplate hu.shorter)
    (fun u hu => by rw [skipUntilIn_eq_skipUntil _ hu.shorter]; rfl)
    (fun u hu => skipUntilIn_eq_skipUntil _ hu.shorter) terminator

/-- Two readers that go through templates and through code up to a terminator round by round, each
going on with itself and leaving what is nested to the other. -/
structure GoesByRounds (template : Text → Option Text) (upTo : Text → Text → Option Text) :
    Prop where
  template_eq : ∀ t, template t = templateRound (fun t => (upTo ['}'] t).bind afterBrace) template t
  upTo_eq : ∀ terminator t, upTo terminator t
    = untilRound template (fun t => (upTo ['}'] t).bind afterBrace) (upTo terminator) terminator t

/-- **The rounds determine the readers.** That the readers go by their rounds says that the fuel is
never spent; that nothing else does says that no round comes back to a text it was given. -/
theorem goesByRounds_iff {template : Text → Option Text} {upTo : Text → Text → Option Text} :
    GoesByRounds template upTo ↔ template = skipTemplate ∧ upTo = skipUntil := by
  constructor
  · rintro ⟨ht, hu⟩
    -- induction on a bound for the length: a round asks about shorter texts only
    have hagree (n : Nat) : ∀ t : Text, t.length < n →
        template t = skipTemplate t ∧ ∀ terminator, upTo terminator t = skipUntil terminator t := by
      induction n with
      | zero => exact fun t h => absurd h (Nat.not_lt_zero _)
      | succ n ih =>
        intro t hn
        have hshort (u : Text) (h : Advances t u) : u.length < n := by have := h.shorter; omega
        have hgroup (u : Text) (h : Advances t u) :
            (upTo ['}'] u).bind afterBrace = skipBraces u := by
          rw [(ih u (hshort u h)).2]
          rfl
        refine ⟨?_, fun terminator => ?_⟩
        · rw [ht, skipTemplate_eq]
          exact templateRound_congr skipBraces_suffix hgroup fun u h => (ih u (hshort u h)).1
        · rw [hu, skipUntil_eq]
          exact untilRound_congr skipTemplate_suffix skipBraces_suffix
            (fun u h => (ih u (hshort u h)).1) hgroup
            (fun u h => (ih u (hshort u h)).2 terminator) terminator
    exact ⟨funext fun t => (hagree _ t (Nat.lt_succ_self _)).1,
      funext fun terminator => funext fun t => (hagree _ t (Nat.lt_succ_self _)).2 terminator⟩
  · rintro ⟨rfl, rfl⟩
    exact ⟨skipTemplate_eq, skipUntil_eq⟩

/-- Where neither a form nor an end of the tag begins, there is nothing to halt at. -/
theorem atTagStop_eq_false {t : Text} (h : skipForm t = none) (hclose : ∀ u, t ≠ '/' :: '>' :: u)
    (hopen : ∀ u, t ≠ '>' :: u) : atTagStop t = false := by
  unfold atTagStop
  split
  case h_3 => exact absurd rfl (hclose _)
  case h_8 => exact absurd rfl (hopen _)
  case h_9 => rfl
  all_goals simp [skipForm, skipFormWith] at h

theorem jsxRound_congr {next next' : JsxPlace → Nat → Text → Option Text} {t : Text}
    (hn : ∀ place around u, Advances t u → next place around u = next' place around u)
    (place : JsxPlace) (around : Nat) :
    jsxRound next place around t = jsxRound next' place around t := by
  cases t with
  | nil => rfl
  | cons c t =>
    cases place with
    | startTag =>
      simp only [jsxRound]
      split
      · next u heq =>
        split
        · rfl
        · exact hn _ _ u (heq ▸ .cons (List.suffix_cons _ u))
      · next u heq => exact hn _ _ _ (heq ▸ .cons (List.suffix_refl _))
      · next hclose hopen =>
        split
        · next u hu => exact hn _ _ u (skipForm_advances hu)
        · next hnone =>
          exact hn _ _ _ (seek_advances (by simp) (atTagStop_eq_false hnone hclose hopen))
    | content =>
      simp only [jsxRound]
      split
      · next u heq =>
        have hu : Advances (c :: t) u := heq ▸ .cons (List.suffix_refl u)
        cases hv : skipBraces u with
        | none => rfl
        | some v => exact hn _ _ v (hu.of_suffix (skipBraces_suffix u v hv))
      · next u heq => exact hn _ _ u (heq ▸ .cons (List.suffix_cons _ u))
      · next u _ heq => exact hn _ _ u (heq ▸ .cons (List.suffix_refl u))
      · next hbrace _ hangle =>
        refine hn _ _ _ (seekAny_advances ?_)
        -- the first character is none that the search halts at, since those have rules above
        have hb : c ≠ '{' := fun hc => hbrace t (by rw [hc])
        have ha : c ≠ '<' := fun hc => hangle t (by rw [hc])
        simp [hb, ha]
    | endTag =>
      simp only [jsxRound]
      split
      · next u heq =>
        split
        · rfl
        · exact hn _ _ u (heq ▸ .cons (List.suffix_refl u))
      · next hclose =>
        refine hn _ _ _ (seekAny_advances ?_)
        have hc : c ≠ '>' := fun hc => hclose t (by rw [hc])
        simp [hc]

theorem skipJsxIn_congr (fuel fuel' : Nat) (place : JsxPlace) (around : Nat) (t : Text)
    (hf : t.length < fuel) (hf' : t.length < fuel') :
    skipJsxIn fuel place around t = skipJsxIn fuel' place around t := by
  induction fuel generalizing fuel' place around t with
  | zero => exact absurd hf (Nat.not_lt_zero _)
  | succ fuel ih =>
    cases fuel' with
    | zero => exact absurd hf' (Nat.not_lt_zero _)
    | succ fuel' =>
      exact jsxRound_congr (fun place around u h => ih fuel' place around u
        (by have := h.shorter; omega) (by have := h.shorter; omega)) place around

/-- **The rounds determine the reader of elements**, wherever in an element it begins. -/
theorem eq_jsxRound_iff {next : JsxPlace → Nat → Text → Option Text} :
    (∀ place around t, next place around t = jsxRound next place around t) ↔
      ∀ place around t, next place around t = skipJsxIn (t.length + 1) place around t := by
  constructor
  · intro hnext
    -- as for templates, a round asks about shorter texts only, in whichever place
    have hagree (n : Nat) : ∀ place around t, t.length < n →
        next place around t = skipJsxIn n place around t := by
      induction n with
      | zero => exact fun _ _ t h => absurd h (Nat.not_lt_zero _)
      | succ n ih =>
        intro place around t hn
        rw [hnext]
        exact jsxRound_congr (fun place around u h => ih place around u
          (by have := h.shorter; omega)) place around
    exact fun place around t => hagree _ place around t (Nat.lt_succ_self _)
  · intro hnext place around t
    rw [hnext]
    exact jsxRound_congr (fun place around u h => by
      rw [hnext, skipJsxIn_congr _ _ place around u h.shorter (Nat.lt_succ_self _)]) place around

end HostCode

namespace RawElement

theorem bodyRound_congr (e : RawElement) {next next' : Text → Text} {t : Text}
    (hn : ∀ u, Advances t u → next u = next' u) : e.bodyRound next t = e.bodyRound next' t := by
  have hs : seek e.atStop t <:+ t := seek_suffix _ t
  unfold bodyRound
  split
  · rfl
  · next c u hu =>
    split
    · rfl
    · exact hn _ (.from_suffix (hu ▸ hs) (HostCode.skipForm_getD_advances c u))

theorem skipBodyIn_congr (e : RawElement) (fuel fuel' : Nat) (t : Text) (hf : t.length < fuel)
    (hf' : t.length < fuel') : e.skipBodyIn fuel t = e.skipBodyIn fuel' t := by
  induction fuel generalizing fuel' t with
  | zero => exact absurd hf (Nat.not_lt_zero _)
  | succ fuel ih =>
    cases fuel' with
    | zero => exact absurd hf' (Nat.not_lt_zero _)
    | succ fuel' =>
      exact e.bodyRound_congr fun u h =>
        ih fuel' u (by have := h.shorter; omega) (by have := h.shorter; omega)

/-- **The rounds determine the reader of bodies.** -/
theorem eq_bodyRound_iff (e : RawElement) {next : Text → Text} :
    (∀ t, next t = e.bodyRound next t) ↔ next = e.skipBody := by
  constructor
  · intro hnext
    have hagree (n : Nat) : ∀ t, t.length < n → next t = e.skipBodyIn n t := by
      induction n with
      | zero => exact fun t h => absurd h (Nat.not_lt_zero _)
      | succ n ih =>
        intro t hn
        rw [hnext]
        exact e.bodyRound_congr fun u h => ih u (by have := h.shorter; omega)
    exact funext fun t => hagree _ t (Nat.lt_succ_self _)
  · rintro rfl t
    exact e.bodyRound_congr fun u h => e.skipBodyIn_congr _ _ u h.shorter (Nat.lt_succ_self _)

end RawElement

end HybridMarkup
