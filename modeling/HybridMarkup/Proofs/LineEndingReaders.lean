/-
Host code is read the same whichever way its lines end.

The readers of host code take a text whose line endings have been rewritten just as they take the
text itself, and leave the rewritten rest. They call each other on shorter texts, so this is said of
the texts below a length first (`AlikeBelow`).

There are two exceptions, and the statements leave them out. In what is read no string may go over a
line break behind a backslash (`Calm`), which would be cut short between the two characters of the
rewritten line ending; in a template literal, which knows no line breaks, a backslash does no harm.
And an import must not end at a blank line (`skipImport_crlf`): the blank line is found by the line
feed in front of it, and so the import would end behind the carriage return.
-/
import HybridMarkup.Proofs.LineEndings

set_option autoImplicit false

namespace HybridMarkup

open Text

namespace HostCode

/-! ## The recursive forms -/

/-- A reader that takes the same with the other line endings, of texts below a length, where it
takes them calmly. -/
def AlikeBelow (n : Nat) (reader : Text → Option Text) : Prop :=
  ∀ t : Text, t.length < n → '\r' ∉ t → Calm t ((reader t).getD []) →
    reader (crlf t) = (reader t).map crlf

variable {n : Nat} {template group next reader reader' : Text → Option Text} {t u rest : Text}

theorem not_mem_of_suffix {c : Char} (h : c ∉ t) (hs : u <:+ t) : c ∉ u :=
  fun hmem => h (hs.subset hmem)

/-- Where a reader goes on with another. -/
theorem AlikeBelow.onward (h : AlikeBelow n next) (hs : LeavesSuffix next) (hu : Advances t u)
    (ht : t.length < n + 1) (hr : '\r' ∉ t) (hcalm : Calm t ((next u).getD [])) :
    next (crlf u) = (next u).map crlf :=
  h u (by have := hu.shorter; omega) (not_mem_of_suffix hr hu.suffix)
    (hcalm.from_suffix hu.suffix (hs.getD u))

theorem AlikeBelow.bind (h : AlikeBelow n reader) (h' : AlikeBelow n reader')
    (hs : LeavesSuffix reader) (hs' : LeavesSuffix reader') :
    AlikeBelow n fun t => (reader t).bind reader' := by
  intro t ht hr hcalm
  dsimp only at hcalm ⊢
  cases hread : reader t with
  | none =>
    rw [hread] at hcalm
    rw [h t ht hr (by rw [hread]; exact hcalm), hread]
    rfl
  | some u =>
    rw [hread, Option.bind_some] at hcalm
    have hu := hs t u hread
    have hfirst := h t ht hr (by rw [hread]; exact hcalm.until hu (hs'.getD u))
    rw [hfirst, hread]
    exact h' u (Nat.lt_of_le_of_lt hu.length_le ht) (not_mem_of_suffix hr hu)
      (hcalm.from_suffix hu (hs'.getD u))

theorem alike_afterBrace (n : Nat) : AlikeBelow n afterBrace := by
  intro t _ _ _
  cases t with
  | nil => rfl
  | cons c t =>
    by_cases hc : c = '\n'
    · subst hc
      rfl
    · rw [crlf_cons hc]
      by_cases hbrace : c = '}'
      · subst hbrace
        rfl
      · simp [afterBrace, hbrace]

theorem neutral_atStop : Neutral atStop := by
  refine neutral_of_pair (fun a b t u => ?_) (fun _ _ => rfl) fun a t u => ?_
  · unfold atStop
    split <;> simp_all
  · unfold atStop
    split <;> simp_all

theorem neutral_skipFormWith : Neutral fun t => (skipFormWith template group t).isSome := by
  refine neutral_of_pair (fun a b t u => ?_) (fun _ _ => rfl) fun a t u => ?_
  · unfold skipFormWith
    split <;> simp_all
  · unfold skipFormWith
    split <;> simp_all

theorem LeavesSuffix.bind (h : LeavesSuffix reader) (h' : LeavesSuffix reader') :
    LeavesSuffix fun t => (reader t).bind reader' := by
  intro t rest hr
  obtain ⟨u, hu, hrest⟩ := Option.bind_eq_some_iff.1 hr
  exact (h' u rest hrest).trans (h t u hu)

theorem getD_map_crlf (o : Option Text) : (o.map crlf).getD [] = crlf (o.getD []) := by
  cases o <;> rfl

theorem skipBlockComment_crlf (hr : '\r' ∉ t) :
    skipBlockComment (crlf t) = crlf (skipBlockComment t) := by
  unfold skipBlockComment
  rw [seekTo_crlf (by decide) (by decide) (by decide) hr]
  cases hfound : seekTo ['*', '/'] t with
  | nil => rfl
  | cons c u =>
    -- what is dropped is the end of the comment
    have hstop : seek (startsWith ['*', '/']) t ≠ [] → _ := seek_stops
    rw [show seek (startsWith ['*', '/']) t = c :: u from hfound] at hstop
    obtain ⟨rest, hrest⟩ := startsWith_iff.1 (hstop (List.cons_ne_nil _ _))
    rw [hrest]
    rfl

/-- **A form of the host language.** -/
theorem skipFormWith_crlf (ht : AlikeBelow n template) (hg : AlikeBelow n group)
    (hst : LeavesSuffix template) (hsg : LeavesSuffix group) :
    AlikeBelow (n + 1) (skipFormWith template group) := by
  intro t hlength hr hcalm
  cases hform : skipFormWith template group t with
  | none => exact neutral_skipFormWith.eq_none hr hform
  | some u =>
    rw [hform] at hcalm
    change Calm t u at hcalm
    unfold skipFormWith at hform
    split at hform
    · next v =>
      obtain rfl := Option.some.inj hform
      exact congrArg some (seekAny_crlf (by decide) v)
    · next v =>
      obtain rfl := Option.some.inj hform
      exact congrArg some (skipBlockComment_crlf (not_mem_of_suffix hr ⟨['/', '*'], rfl⟩))
    · next v =>
      obtain rfl := Option.some.inj hform
      have hread := skipString_crlf (by decide) (by decide)
        (hcalm.string (.inl rfl) (List.suffix_refl _))
      exact congrArg (fun ending => some ending.2) hread
    · next v =>
      obtain rfl := Option.some.inj hform
      have hread := skipString_crlf (by decide) (by decide)
        (hcalm.string (.inr rfl) (List.suffix_refl _))
      exact congrArg (fun ending => some ending.2) hread
    · next v =>
      obtain rfl := Option.some.inj hform
      have hread := ht.onward hst (.cons (List.suffix_refl v)) hlength hr hcalm
      show some ((template (crlf v)).getD []) = _
      rw [hread, getD_map_crlf]
      rfl
    · next v =>
      obtain rfl := Option.some.inj hform
      have hread := hg.onward hsg (.cons (List.suffix_refl v)) hlength hr hcalm
      show some ((group (crlf v)).getD []) = _
      rw [hread, getD_map_crlf]
      rfl
    · simp at hform

/-- **A round in a template literal.** Of a line ending behind a backslash the line feed is left
over, where it means nothing. -/
theorem templateRound_crlf (hg : AlikeBelow n group) (hn : AlikeBelow n next)
    (hsg : LeavesSuffix group) (hsn : LeavesSuffix next)
    (hfeed : ∀ t : Text, next ('\n' :: t) = next t) :
    AlikeBelow (n + 1) (templateRound group next) := by
  intro t hlength hr hcalm
  have hs : seekAny ['\\', '\x60', '$'] t <:+ t := seekAny_suffix _ t
  unfold templateRound at hcalm ⊢
  rw [seekAny_crlf (by decide)]
  split at hcalm
  · next hnil =>
    rw [hnil]
    rfl
  · next u hu =>
    rw [hu] at hs ⊢
    rcases u with _ | ⟨c, u⟩
    · exact hn.onward hsn (.from_suffix hs (.cons (List.suffix_refl []))) hlength hr hcalm
    have hstep : Advances t u := .from_suffix hs (.cons (List.suffix_cons c u))
    have honward := hn.onward hsn hstep hlength hr hcalm
    by_cases hc : c = '\n'
    · subst hc
      exact (hfeed _).trans honward
    · rw [crlf_cons (by decide), crlf_cons hc]
      exact honward
  · next u hu =>
    rw [hu]
    rfl
  · next u hu =>
    rw [hu] at hs ⊢
    have hstep : Advances t u := .from_suffix hs (.cons (List.suffix_cons _ u))
    exact (hg.bind hn hsg hsn).onward (hsg.bind hsn) hstep hlength hr hcalm
  · next c u hbackslash hquote hhole hu =>
    rw [hu] at hs
    rw [hu]
    have hstep : Advances t u := .from_suffix hs (.cons (List.suffix_refl u))
    have honward := hn.onward hsn hstep hlength hr hcalm
    -- the search does not halt at a line feed
    have hc : c ≠ '\n' := by
      have hstop := List.head?_dropWhile_not (fun c => !(['\\', '\x60', '$'].contains c)) t
      rw [show t.dropWhile _ = c :: u from hu] at hstop
      rintro rfl
      simp at hstop
    rw [crlf_cons hc]
    split
    · next heq => simp at heq
    · next heq => exact absurd (List.cons.inj heq).1 hbackslash
    · next heq => exact absurd (List.cons.inj heq).1 hquote
    · next v heq =>
      obtain ⟨hdollar, hrest⟩ := List.cons.inj heq
      obtain ⟨w, rfl, _⟩ := crlf_eq_cons (by decide) hrest
      exact (hhole w hdollar rfl).elim
    · next heq =>
      obtain ⟨_, rfl⟩ := List.cons.inj heq
      exact honward

/-- **A round of the search for a terminator.** -/
theorem untilRound_crlf (ht : AlikeBelow n template) (hg : AlikeBelow n group)
    (hn : AlikeBelow n next) (hst : LeavesSuffix template) (hsg : LeavesSuffix group)
    (hsn : LeavesSuffix next) {terminator : Text} (hfeed : '\n' ∉ terminator)
    (hreturn : '\r' ∉ terminator) :
    AlikeBelow (n + 1) (untilRound template group next terminator) := by
  intro t hlength hr hcalm
  unfold untilRound at hcalm ⊢
  rw [startsWith_crlf hfeed hreturn]
  split at hcalm
  · next hhere =>
    rw [if_pos hhere, if_pos hhere]
    rfl
  next hhere =>
  rw [if_neg hhere, if_neg hhere]
  cases hform : skipFormWith template group t with
  | some u =>
    rw [hform] at hcalm
    have hstep := skipFormWith_advances hst hsg hform
    have hread := skipFormWith_crlf ht hg hst hsg t hlength hr
      (by rw [hform]; exact hcalm.until hstep.suffix (hsn.getD u))
    rw [hread, hform]
    exact hn.onward hsn hstep hlength hr hcalm
  | none =>
    rw [hform] at hcalm
    rw [neutral_skipFormWith.eq_none hr hform]
    dsimp only at hcalm ⊢
    split at hcalm
    · next u =>
      -- a brace that closes nothing
      exact hn.onward hsn (.cons (List.suffix_refl u)) hlength hr hcalm
    · next hbrace =>
      have hbrace' (u : Text) : crlf t ≠ '}' :: u := by
        intro heq
        obtain ⟨v, rfl, _⟩ := crlf_eq_cons (by decide) heq
        exact hbrace v rfl
      have hseek : seek atStop (crlf t) = crlf (seek atStop t) :=
        seek_crlf neutral_atStop (fun _ _ _ => rfl) hr
      split
      · next heq => exact absurd heq (hbrace' _)
      rw [hseek]
      cases hfound : seek atStop t with
      | nil => rfl
      | cons c u =>
        rw [hfound] at hcalm
        have hnil : t ≠ [] := by
          rintro rfl
          simp [seek] at hfound
        have hstep : Advances t (c :: u) := by
          rw [← hfound]
          exact seek_advances hnil (skipFormWith_eq_none hform hbrace)
        have honward := hn.onward hsn hstep hlength hr hcalm
        split
        · next heq => exact absurd heq (crlf_ne_nil (List.cons_ne_nil c u))
        · exact honward

theorem skipTemplate_feed (t : Text) : skipTemplate ('\n' :: t) = skipTemplate t := by
  rw [skipTemplate_eq, skipTemplate_eq t]
  rfl

/-- **Template literals and code up to a terminator.** -/
theorem skip_crlf (n : Nat) :
    AlikeBelow n skipTemplate ∧
      ∀ terminator : Text, '\n' ∉ terminator → '\r' ∉ terminator →
        AlikeBelow n (skipUntil terminator) := by
  induction n with
  | zero =>
    exact ⟨fun t h => absurd h (Nat.not_lt_zero _), fun _ _ _ t h => absurd h (Nat.not_lt_zero _)⟩
  | succ n ih =>
    obtain ⟨htemplate, huntil⟩ := ih
    have hbraces : AlikeBelow n skipBraces :=
      (huntil ['}'] (by decide) (by decide)).bind (alike_afterBrace n) (skipUntil_suffix _)
        fun _ _ h => (afterBrace_advances h).suffix
    have hround := templateRound_crlf hbraces htemplate skipBraces_suffix skipTemplate_suffix
      skipTemplate_feed
    refine ⟨fun t hlength hr hcalm => ?_, fun terminator hfeed hreturn t hlength hr hcalm => ?_⟩
    · rw [skipTemplate_eq] at hcalm
      rw [skipTemplate_eq, skipTemplate_eq t]
      exact hround t hlength hr hcalm
    · rw [skipUntil_eq] at hcalm
      rw [skipUntil_eq, skipUntil_eq terminator t]
      exact untilRound_crlf htemplate hbraces (huntil terminator hfeed hreturn) skipTemplate_suffix
        skipBraces_suffix (skipUntil_suffix terminator) hfeed hreturn t hlength hr hcalm

theorem skipUntil_crlf {terminator : Text} (hfeed : '\n' ∉ terminator) (hreturn : '\r' ∉ terminator)
    (hr : '\r' ∉ t) (hcalm : Calm t ((skipUntil terminator t).getD [])) :
    skipUntil terminator (crlf t) = (skipUntil terminator t).map crlf :=
  (skip_crlf (t.length + 1)).2 terminator hfeed hreturn t (Nat.lt_succ_self _) hr hcalm

theorem alike_skipBraces (n : Nat) : AlikeBelow n skipBraces :=
  ((skip_crlf n).2 ['}'] (by decide) (by decide)).bind (alike_afterBrace n) (skipUntil_suffix _)
    fun _ _ h => (afterBrace_advances h).suffix

theorem skipForm_crlf (hr : '\r' ∉ t) (hcalm : ∀ u, skipForm t = some u → Calm t u) :
    skipForm (crlf t) = (skipForm t).map crlf := by
  cases hform : skipForm t with
  | none => exact neutral_skipFormWith.eq_none hr hform
  | some u =>
    have halike : AlikeBelow (t.length + 1) skipForm :=
      skipFormWith_crlf (skip_crlf _).1 (alike_skipBraces _) skipTemplate_suffix skipBraces_suffix
    rw [← hform]
    exact halike t (Nat.lt_succ_self _) hr (by rw [hform]; exact hcalm u hform)

/-! ## Elements and imports -/

theorem neutral_atTagStop : Neutral atTagStop := by
  refine neutral_of_pair (fun a b t u => ?_) (fun _ _ => rfl) fun a t u => ?_
  · unfold atTagStop
    split <;> simp_all
  · unfold atTagStop
    split <;> simp_all

section Elements

variable {around : Nat} {onward : JsxPlace → Nat → Text → Option Text}
  (hn : ∀ place around, AlikeBelow n (onward place around))
  (hsn : ∀ place around, LeavesSuffix (onward place around))

include hn hsn

theorem tagRound_crlf {c : Char} (hlength : (c :: t).length < n + 1) (hr : '\r' ∉ c :: t)
    (hstop : skipForm (c :: t) = none → atTagStop (c :: t) = false)
    (hcalm : Calm (c :: t) ((tagRound onward around (c :: t)).getD [])) :
    tagRound onward around (crlf (c :: t)) = (tagRound onward around (c :: t)).map crlf := by
  unfold tagRound at hcalm ⊢
  cases hform : skipForm (c :: t) with
  | some u =>
    rw [hform] at hcalm
    have hstep := skipForm_advances hform
    have hread : skipForm (crlf (c :: t)) = (skipForm (c :: t)).map crlf := by
      refine skipForm_crlf hr fun v hv => ?_
      obtain rfl := Option.some.inj (hform.symm.trans hv)
      exact hcalm.until hstep.suffix ((hsn _ _).getD u)
    rw [hread, hform]
    exact (hn _ _).onward (hsn _ _) hstep hlength hr hcalm
  | none =>
    rw [hform] at hcalm
    rw [skipForm_crlf hr (by simp [hform]), hform, Option.map_none]
    dsimp only
    rw [seek_crlf neutral_atTagStop (fun _ _ _ => rfl) hr]
    exact (hn _ _).onward (hsn _ _) (seek_advances (List.cons_ne_nil c t) (hstop hform)) hlength hr
      hcalm

theorem startTag_crlf (around : Nat) : AlikeBelow (n + 1) (jsxRound onward .startTag around) := by
  intro t hlength hr hcalm
  rcases t with _ | ⟨c, t⟩
  · rfl
  by_cases hclose : ∃ u, c :: t = '/' :: '>' :: u
  · obtain ⟨u, heq⟩ := hclose
    obtain ⟨rfl, rfl⟩ := List.cons.inj heq
    cases around with
    | zero => rfl
    | succ outer =>
      exact (hn _ _).onward (hsn _ _) (.cons (List.suffix_cons _ u)) hlength hr hcalm
  by_cases hopen : c = '>'
  · subst hopen
    exact (hn _ _).onward (hsn _ _) (.cons (List.suffix_refl t)) hlength hr hcalm
  have hclose' (u : Text) : c :: t ≠ '/' :: '>' :: u := fun heq => hclose ⟨u, heq⟩
  have hopen' (u : Text) : c :: t ≠ '>' :: u := fun heq => hopen (List.cons.inj heq).1
  rw [jsxRound_startTag hclose' hopen' (List.cons_ne_nil c t)] at hcalm ⊢
  rw [jsxRound_startTag _ _ (crlf_ne_nil (List.cons_ne_nil c t))]
  · exact tagRound_crlf hn hsn hlength hr (fun hnone => atTagStop_eq_false hnone hclose' hopen')
      hcalm
  · intro u heq
    obtain ⟨v, hv, hrest⟩ := crlf_eq_cons (by decide) heq
    obtain ⟨w, rfl, _⟩ := crlf_eq_cons (by decide) hrest.symm
    exact hclose' w hv
  · intro u heq
    obtain ⟨v, hv, _⟩ := crlf_eq_cons (by decide) heq
    exact hopen' v hv

/-- Going on behind a run without any of the given characters. -/
theorem onwardAny_crlf {place : JsxPlace} {stops : List Char} {c : Char}
    (hbreak : stops.contains '\r' = stops.contains '\n') (hlength : (c :: t).length < n + 1)
    (hr : '\r' ∉ c :: t) (hnot : stops.contains c = false)
    (hcalm : Calm (c :: t) ((onward place around (seekAny stops (c :: t))).getD [])) :
    onward place around (seekAny stops (crlf (c :: t)))
      = (onward place around (seekAny stops (c :: t))).map crlf := by
  rw [seekAny_crlf hbreak]
  exact (hn _ _).onward (hsn _ _) (seekAny_advances hnot) hlength hr hcalm

theorem content_crlf (around : Nat) : AlikeBelow (n + 1) (jsxRound onward .content around) := by
  intro t hlength hr hcalm
  rcases t with _ | ⟨c, t⟩
  · rfl
  by_cases hbrace : c = '{'
  · subst hbrace
    exact ((alike_skipBraces n).bind (hn _ _) skipBraces_suffix (hsn _ _)).onward
      (skipBraces_suffix.bind (hsn _ _)) (.cons (List.suffix_refl t)) hlength hr hcalm
  by_cases hangle : c = '<'
  · subst hangle
    rcases t with _ | ⟨d, t⟩
    · exact (hn _ _).onward (hsn _ _) (.cons (List.suffix_refl [])) hlength hr hcalm
    by_cases hslash : d = '/'
    · subst hslash
      exact (hn _ _).onward (hsn _ _) (.cons (List.suffix_cons _ t)) hlength hr hcalm
    have hslash' (u : Text) : d :: t ≠ '/' :: u := fun heq => hslash (List.cons.inj heq).1
    rw [jsxRound_open hslash'] at hcalm
    rw [crlf_cons (by decide), jsxRound_open hslash', jsxRound_open]
    · exact (hn _ _).onward (hsn _ _) (.cons (List.suffix_refl _)) hlength hr hcalm
    · intro u heq
      obtain ⟨v, hv, _⟩ := crlf_eq_cons (by decide) heq
      exact hslash' v hv
  have hbrace' (u : Text) : c :: t ≠ '{' :: u := fun heq => hbrace (List.cons.inj heq).1
  have hangle' (u : Text) : c :: t ≠ '<' :: u := fun heq => hangle (List.cons.inj heq).1
  rw [jsxRound_content hbrace' hangle' (List.cons_ne_nil c t)] at hcalm ⊢
  rw [jsxRound_content _ _ (crlf_ne_nil (List.cons_ne_nil c t))]
  · exact onwardAny_crlf hn hsn rfl hlength hr (by simp [hbrace, hangle]) hcalm
  · intro u heq
    obtain ⟨v, hv, _⟩ := crlf_eq_cons (by decide) heq
    exact hbrace' v hv
  · intro u heq
    obtain ⟨v, hv, _⟩ := crlf_eq_cons (by decide) heq
    exact hangle' v hv

theorem endTag_crlf (around : Nat) : AlikeBelow (n + 1) (jsxRound onward .endTag around) := by
  intro t hlength hr hcalm
  rcases t with _ | ⟨c, t⟩
  · rfl
  by_cases hclose : c = '>'
  · subst hclose
    cases around with
    | zero => rfl
    | succ outer =>
      exact (hn _ _).onward (hsn _ _) (.cons (List.suffix_refl t)) hlength hr hcalm
  have hclose' (u : Text) : c :: t ≠ '>' :: u := fun heq => hclose (List.cons.inj heq).1
  rw [jsxRound_endTag hclose' (List.cons_ne_nil c t)] at hcalm ⊢
  rw [jsxRound_endTag _ (crlf_ne_nil (List.cons_ne_nil c t))]
  · exact onwardAny_crlf hn hsn rfl hlength hr (by simp [hclose]) hcalm
  · intro u heq
    obtain ⟨v, hv, _⟩ := crlf_eq_cons (by decide) heq
    exact hclose' v hv

/-- A round of the reader of elements, wherever in the element it is. -/
theorem jsxRound_crlf (place : JsxPlace) (around : Nat) :
    AlikeBelow (n + 1) (jsxRound onward place around) := by
  cases place with
  | startTag => exact startTag_crlf hn hsn around
  | content => exact content_crlf hn hsn around
  | endTag => exact endTag_crlf hn hsn around

end Elements

theorem alike_skipJsxFrom (n : Nat) (place : JsxPlace) (around : Nat) :
    AlikeBelow n (skipJsxFrom place around) := by
  induction n generalizing place around with
  | zero => exact fun t h => absurd h (Nat.not_lt_zero _)
  | succ n ih =>
    intro t hlength hr hcalm
    rw [skipJsxFrom_eq] at hcalm
    rw [skipJsxFrom_eq, skipJsxFrom_eq place around t]
    exact jsxRound_crlf ih (fun place around t => skipJsxIn_suffix _ place around t) place around
      t hlength hr hcalm

/-- **Elements.** -/
theorem skipJsx_crlf (hr : '\r' ∉ t) (hcalm : Calm t ((skipJsx t).getD [])) :
    skipJsx (crlf t) = (skipJsx t).map crlf :=
  alike_skipJsxFrom (t.length + 1) .startTag 0 t (Nat.lt_succ_self _) hr hcalm

/-- **Expressions.** -/
theorem skipBraces_crlf (hr : '\r' ∉ t) (hcalm : Calm t ((skipBraces t).getD [])) :
    skipBraces (crlf t) = (skipBraces t).map crlf :=
  alike_skipBraces (t.length + 1) t (Nat.lt_succ_self _) hr hcalm

theorem atImport_crlf (t : Text) : atImport (crlf t) = atImport t := by
  unfold atImport
  rw [strip?_crlf (by decide) (by decide)]
  cases strip? importKeyword t with
  | none => rfl
  | some rest =>
    rcases rest with _ | ⟨c, rest⟩
    · rfl
    by_cases hc : c = '\n'
    · subst hc
      show (!continuesIdentifier '\r') = !continuesIdentifier '\n'
      decide +kernel
    · rw [Option.map_some, crlf_cons hc]

theorem exists_of_keyword (h : atImport t = true) : ∃ u, t = importKeyword ++ u := by
  unfold atImport at h
  cases hstrip : strip? importKeyword t with
  | none => simp [hstrip] at h
  | some u => exact ⟨u, strip?_eq_some.1 hstrip⟩

/-- A blank line is seen from the line feed in front of it. -/
theorem atBlankLine_feed (t : Text) :
    atBlankLine ('\n' :: crlf t) = atBlankLine ('\n' :: t) := by
  unfold atBlankLine
  simp only [dropWhile_crlf (show isLineSpace '\r' = isLineSpace '\n' by decide)]
  rcases t.dropWhile isLineSpace with _ | ⟨c, u⟩
  · rfl
  by_cases hc : c = '\n'
  · subst hc
    rfl
  · rw [crlf_cons hc]

/-- The search for the module string of an import comes to the same place, unless that is a blank
line. -/
theorem seek_atImportStop_crlf (hr : '\r' ∉ t)
    (hblank : atBlankLine (seek atImportStop t) = false) :
    seek atImportStop (crlf t) = crlf (seek atImportStop t) := by
  induction t with
  | nil => rfl
  | cons c t ih =>
    have htail : '\r' ∉ t := fun hmem => hr (List.mem_cons_of_mem c hmem)
    by_cases hc : c = '\n'
    · subst hc
      have hfeed (u : Text) : atImportStop ('\n' :: u) = atBlankLine ('\n' :: u) := rfl
      by_cases hstop : atBlankLine ('\n' :: t) = true
      · rw [seek, hfeed, if_pos hstop, hstop] at hblank
        exact absurd hblank (by decide)
      · rw [seek, hfeed, if_neg hstop] at hblank
        have hreturn (u : Text) : atImportStop ('\r' :: u) = false := rfl
        rw [crlf_break, seek, hreturn, if_neg (by decide), seek, hfeed, atBlankLine_feed,
          if_neg hstop, ih htail hblank, seek, hfeed, if_neg hstop]
    · have hhere (u : Text) : atImportStop (c :: u) = (c == '\'' || c == '"') := by
        unfold atImportStop atBlankLine
        split <;> simp_all
      by_cases hstop : (c == '\'' || c == '"') = true
      · rw [seek, hhere, if_pos hstop, crlf_cons hc, seek, hhere, if_pos hstop]
      · rw [seek, hhere, if_neg hstop] at hblank ⊢
        rw [crlf_cons hc, seek, hhere, if_neg hstop, ih htail hblank]

/-- What a search passes over, it does not halt at. -/
theorem exists_of_mem_before_seek {stop : Text → Bool} {c : Char}
    (h : c ∈ before t (seek stop t)) : ∃ u, stop (c :: u) = false := by
  induction t with
  | nil => simp [before] at h
  | cons d t ih =>
    by_cases hstop : stop (d :: t) = true
    · rw [seek, if_pos hstop, before_self] at h
      exact absurd h List.not_mem_nil
    · rw [seek, if_neg hstop, before_cons (seek_suffix stop t)] at h
      rcases List.mem_cons.1 h with rfl | h
      · exact ⟨t, by simpa using hstop⟩
      · exact ih h

/-- The module string and the semicolon behind it. -/
theorem skipModule_crlf {quote : Char} (hquote : quote = '\'' ∨ quote = '"')
    (hcalm : Calm (quote :: t) (skipModule quote t).2) :
    skipModule quote (crlf t) = ((skipModule quote t).1, crlf (skipModule quote t).2) := by
  have hsuffix : (skipModule quote t).2 <:+ (skipString quote t).2 := by
    unfold skipModule
    split
    · next u heq =>
      rw [heq]
      exact List.suffix_cons _ u
    · exact List.suffix_refl _
  have hread : skipString quote (crlf t)
      = ((skipString quote t).1, crlf (skipString quote t).2) :=
    skipString_crlf (by rcases hquote with rfl | rfl <;> decide)
      (by rcases hquote with rfl | rfl <;> decide) (hcalm.string hquote hsuffix)
  unfold skipModule
  rw [hread]
  cases hstring : skipString quote t with
  | mk found u =>
    rcases u with _ | ⟨c, u⟩
    · cases found <;> rfl
    by_cases hc : c = '\n'
    · subst hc
      cases found <;> rfl
    · dsimp only
      rw [crlf_cons hc]
      cases found with
      | false => simp [crlf_cons hc]
      | true =>
        by_cases hsemicolon : c = ';'
        · subst hsemicolon
          rfl
        · simp [hsemicolon, crlf_cons hc]

/-- **Imports**, unless one without a quote ends in front of more text: then it ends at a blank
line. -/
theorem skipImport_crlf (hr : '\r' ∉ t) (hcalm : Calm t (skipImport t).2)
    (hline : (skipImport t).1 = false → (skipImport t).2 ≠ [] →
      ∃ c ∈ before t (skipImport t).2, c = '\'' ∨ c = '"') :
    skipImport (crlf t) = ((skipImport t).1, crlf (skipImport t).2) := by
  have hs : seek atImportStop t <:+ t := seek_suffix _ t
  have hseek := seek_atImportStop_crlf hr
  unfold skipImport at hcalm hline ⊢
  dsimp only at hcalm hline ⊢
  cases hfound : seek atImportStop t with
  | nil =>
    rw [hfound] at hseek
    rw [hseek rfl]
    rfl
  | cons c u =>
    rw [hfound] at hs hcalm hline hseek
    rcases Decidable.em (c = '\'' ∨ c = '"') with hquote | hquote
    · have hmodule (hcalm : Calm t (skipModule c u).2) :
          skipModule c (crlf u) = ((skipModule c u).1, crlf (skipModule c u).2) :=
        skipModule_crlf hquote (hcalm.from_suffix hs
          ((skipModule_suffix c u).trans (List.suffix_cons c u)))
      rcases hquote with rfl | rfl
      · rw [hseek rfl]
        exact hmodule hcalm
      · rw [hseek rfl]
        exact hmodule hcalm
    · -- a blank line: a quote in front of it would have been halted at
      rw [not_or] at hquote
      split at hline
      · next heq => exact absurd (List.cons.inj heq).1 hquote.1
      · next heq => exact absurd (List.cons.inj heq).1 hquote.2
      obtain ⟨d, hd, hmark⟩ := hline rfl (List.cons_ne_nil c u)
      rw [← hfound] at hd
      obtain ⟨v, hv⟩ := exists_of_mem_before_seek hd
      rcases hmark with rfl | rfl <;> simp [atImportStop] at hv

end HostCode

/-! ## The bodies of script and style elements -/

namespace RawElement

open HostCode

theorem startsWithIgnoringCase_crlf {beginning : Text}
    (h : ∀ c ∈ beginning, c.toLower ≠ '\n' ∧ c.toLower ≠ '\r') (t : Text) :
    startsWithIgnoringCase beginning (crlf t) = startsWithIgnoringCase beginning t := by
  induction beginning generalizing t with
  | nil => rfl
  | cons b beginning ih =>
    obtain ⟨hfeed, hreturn⟩ := h b List.mem_cons_self
    rcases t with _ | ⟨c, t⟩
    · rfl
    by_cases hc : c = '\n'
    · subst hc
      have hfeed' : (b.toLower == ('\n' : Char).toLower) = false := by simpa using hfeed
      have hreturn' : (b.toLower == ('\r' : Char).toLower) = false := by simpa using hreturn
      rw [crlf_break, startsWithIgnoringCase, startsWithIgnoringCase, hfeed', hreturn',
        Bool.false_and, Bool.false_and]
    · rw [crlf_cons hc, startsWithIgnoringCase, startsWithIgnoringCase,
        ih fun d hd => h d (List.mem_cons_of_mem b hd)]

theorem startsWithFolded_crlf {beginning : Text}
    (h : ∀ c ∈ beginning, foldCase c ≠ '\n' ∧ foldCase c ≠ '\r') (t : Text) :
    startsWithFolded beginning (crlf t) = startsWithFolded beginning t := by
  induction beginning generalizing t with
  | nil => rfl
  | cons b beginning ih =>
    obtain ⟨hfeed, hreturn⟩ := h b List.mem_cons_self
    rcases t with _ | ⟨c, t⟩
    · rfl
    by_cases hc : c = '\n'
    · subst hc
      have hfeed' : (foldCase b == foldCase '\n') = false := beq_eq_false_iff_ne.2 hfeed
      have hreturn' : (foldCase b == foldCase '\r') = false := beq_eq_false_iff_ne.2 hreturn
      rw [crlf_break, startsWithFolded, startsWithFolded, hfeed', hreturn',
        Bool.false_and, Bool.false_and]
    · rw [crlf_cons hc, startsWithFolded, startsWithFolded,
        ih fun d hd => h d (List.mem_cons_of_mem b hd)]

variable {t : Text}

theorem atClosing_crlf (e : RawElement) (t : Text) : e.atClosing (crlf t) = e.atClosing t :=
  startsWithIgnoringCase_crlf (by cases e <;> simp [closing, name]) t

theorem neutral_atStop (e : RawElement) : Neutral e.atStop := by
  intro t _
  have hnames : e.closing.all (fun c => foldCase c != '\n' && foldCase c != '\r') = true := by
    cases e <;> decide
  have hclosing : startsWithFolded e.closing (crlf t) = startsWithFolded e.closing t := by
    refine startsWithFolded_crlf (fun c hc => ?_) t
    simpa using List.all_eq_true.1 hnames c hc
  rcases t with _ | ⟨a, t⟩
  · rfl
  by_cases ha : a = '\n'
  · subst ha
    exact hclosing
  rw [crlf_cons ha] at hclosing ⊢
  rcases t with _ | ⟨b, t⟩
  · rfl
  by_cases hb : b = '\n'
  · subst hb
    unfold atStop
    split <;> simp_all
  · rw [crlf_cons hb] at hclosing ⊢
    unfold atStop
    split <;> simp_all

theorem atStop_feed (e : RawElement) (t : Text) : e.atStop ('\n' :: t) = false := by
  cases e <;> rfl

theorem skipBody_eq (e : RawElement) (t : Text) : e.skipBody t = e.bodyRound e.skipBody t :=
  (eq_bodyRound_iff e).2 rfl t

/-- **Bodies.** -/
theorem skipBody_crlf (e : RawElement) (hr : '\r' ∉ t) (hcalm : Calm t (e.skipBody t)) :
    e.skipBody (crlf t) = crlf (e.skipBody t) := by
  induction hn : t.length using Nat.strongRecOn generalizing t with
  | ind n ih =>
    subst hn
    have hs : seek e.atStop t <:+ t := seek_suffix _ t
    have hseek : seek e.atStop (crlf t) = crlf (seek e.atStop t) :=
      seek_crlf e.neutral_atStop (fun u _ _ => e.atStop_feed _) hr
    rw [skipBody_eq] at hcalm
    rw [skipBody_eq, skipBody_eq e t]
    unfold bodyRound at hcalm ⊢
    rw [hseek]
    cases hfound : seek e.atStop t with
    | nil => rfl
    | cons c u =>
      rw [hfound] at hs hcalm
      dsimp only at hcalm
      have hc : c ≠ '\n' := by
        rintro rfl
        have hstop : e.atStop (seek e.atStop t) = true := seek_stops (by simp [hfound])
        rw [hfound, atStop_feed] at hstop
        simp at hstop
      have hclosing := e.atClosing_crlf (c :: u)
      rw [crlf_cons hc] at hclosing ⊢
      dsimp only
      rw [hclosing]
      split at hcalm
      · next hhere => rw [if_pos hhere, if_pos hhere, crlf_cons hc]
      next hhere =>
      rw [if_neg hhere, if_neg hhere]
      have hstep := skipForm_getD_advances c u
      have hrest : Calm (c :: u) (e.skipBody ((skipForm (c :: u)).getD u)) :=
        hcalm.from_suffix hs ((e.skipBody_suffix _).trans hstep.suffix)
      -- the form, or else the character, and then the rest of the body
      have hform : (skipForm (c :: crlf u)).getD (crlf u) = crlf ((skipForm (c :: u)).getD u) := by
        have hread : skipForm (crlf (c :: u)) = (skipForm (c :: u)).map crlf := by
          refine skipForm_crlf (not_mem_of_suffix hr hs) fun v hv => ?_
          rw [hv, Option.getD_some] at hrest
          exact hrest.until (skipForm_advances hv).suffix (e.skipBody_suffix v)
        rw [← crlf_cons hc, hread]
        cases skipForm (c :: u) <;> rfl
      rw [hform]
      exact ih _ (by have := (hstep.from_suffix hs).shorter; omega)
        (not_mem_of_suffix hr (hstep.suffix.trans hs)) (hrest.from_suffix hstep.suffix
          (e.skipBody_suffix _)) rfl

end RawElement

end HybridMarkup
