/-
The readers of host code as loops that move a cursor.

A reader answers the text that is left, and `none` where a construct never closes. A scanner that
works in place moves a cursor instead and answers a flag, some of its routines pay no heed to the
flag of another, and its search for the end of an element counts the open elements. Here are the
loops in that form, with the cursor given by the text behind it. That the two forms say the same is
the content of this file: a loop that fails has moved its cursor to the end of the text
(`upTo_eq`, `overBraces_eq`), and the count of open elements never falls below zero
(`overElement_eq`).
-/
import HybridMarkup.Proofs.Foresight

set_option autoImplicit false

namespace HybridMarkup.HostCode

open Text

/-- What a loop answers for a reader: whether the construct is closed, and the text behind the
cursor. Where it is not closed, the cursor is at the end. -/
def ending : Option Text → Bool × Text
  | some t => (true, t)
  | none => (false, [])

namespace Loop

/-! ## The loops -/

/-- Takes a closing brace behind a search that was successful. -/
def takeBrace : Bool × Text → Bool × Text
  | (true, '}' :: t) => (true, t)
  | (_, t) => (false, t)

/-- Moves over one form, and answers whether one begins here. Whether it ends is not asked. -/
def overFormWith (template braces : Text → Bool × Text) : Text → Bool × Text
  | '/' :: '/' :: t => (true, seekAny ['\n', '\r'] ('/' :: '/' :: t))
  | '/' :: '*' :: t => (true, (seekTo ['*', '/'] t).drop 2)
  | '\'' :: t => (true, (skipString '\'' t).2)
  | '"' :: t => (true, (skipString '"' t).2)
  | '\x60' :: t => (true, (template t).2)
  | '{' :: t => (true, (braces t).2)
  | t => (false, t)

mutual

/-- Moves over the rest of a template literal. -/
def overTemplateIn : Nat → Text → Bool × Text
  | 0, t => (false, t)
  | fuel + 1, t =>
    match seekAny ['\\', '\x60', '$'] t with
    | [] => (false, [])
    | '\\' :: t => overTemplateIn fuel (t.drop 1)
    | '$' :: '{' :: t =>
      match takeBrace (upToIn fuel ['}'] t) with
      | (true, t) => overTemplateIn fuel t
      | (false, t) => (false, t)
    | '\x60' :: t => (true, t)
    | _ :: t => overTemplateIn fuel t

/-- Moves to the terminator. -/
def upToIn : Nat → Text → Text → Bool × Text
  | 0, _, t => (false, t)
  | fuel + 1, terminator, t =>
    if startsWith terminator t then (true, t)
    else
      match overFormWith (overTemplateIn fuel) (fun t => takeBrace (upToIn fuel ['}'] t)) t with
      | (true, t) => upToIn fuel terminator t
      | (false, '}' :: t) => upToIn fuel terminator t
      | (false, t) =>
        match seek atStop t with
        | [] => (false, [])
        | t => upToIn fuel terminator t

end

/-- Moves to the terminator. A round that does not end the loop takes a character. -/
def upTo (terminator t : Text) : Bool × Text := upToIn (t.length + 1) terminator t

/-- Moves over the rest of a template literal. -/
def overTemplate (t : Text) : Bool × Text := overTemplateIn (t.length + 1) t

/-- Moves over the rest of a group in braces. -/
def overBraces (t : Text) : Bool × Text := takeBrace (upTo ['}'] t)

/-- Moves over one form. -/
def overForm (t : Text) : Bool × Text := overFormWith overTemplate overBraces t

/-- One open element less: the last of them is the end, and below zero there is nothing. -/
def leaveElement (next : Nat → Text → Option (Bool × Text)) : Nat → Text → Option (Bool × Text)
  | 0, _ => none
  | 1, t => some (true, t)
  | depth + 2, t => next (depth + 1) t

/-- Goes on at a place that was searched for, unless it was not found. -/
def orSpent (next : Text → Option (Bool × Text)) : Text → Option (Bool × Text)
  | [] => some (false, [])
  | t => next t

/-- One round within a start tag. -/
def startTagRound (next : JsxPlace → Nat → Text → Option (Bool × Text)) (depth : Nat) (t : Text) :
    Option (Bool × Text) :=
  match t with
  | '/' :: '>' :: t => leaveElement (next .content) depth t
  | '>' :: t => next .content depth t
  | t =>
    match overForm t with
    | (true, t) => next .startTag depth t
    | (false, t) => orSpent (next .startTag depth) (seek atTagStop t)

/-- One round between the tags. -/
def contentRound (next : JsxPlace → Nat → Text → Option (Bool × Text)) (depth : Nat) (t : Text) :
    Option (Bool × Text) :=
  match t with
  | '{' :: t =>
    match overBraces t with
    | (true, t) => next .content depth t
    | (false, t) => some (false, t)
  | '<' :: '/' :: t => next .endTag depth t
  | '<' :: t => next .startTag (depth + 1) t
  | t => orSpent (next .content depth) (seekAny ['{', '<'] t)

/-- One round within an end tag. -/
def endTagRound (next : JsxPlace → Nat → Text → Option (Bool × Text)) (depth : Nat) (t : Text) :
    Option (Bool × Text) :=
  match t with
  | '>' :: t => leaveElement (next .content) depth t
  | t => orSpent (next .endTag depth) (seekAny ['>'] t)

/-- Moves to the end of the outermost of `depth` open elements. `none` is no answer: the count was
to fall below zero, or the rounds were too few. -/
def overElementIn : Nat → JsxPlace → Nat → Text → Option (Bool × Text)
  | 0, _, _, _ => none
  | _ + 1, _, _, [] => some (false, [])
  | fuel + 1, .startTag, depth, c :: t => startTagRound (overElementIn fuel) depth (c :: t)
  | fuel + 1, .content, depth, c :: t => contentRound (overElementIn fuel) depth (c :: t)
  | fuel + 1, .endTag, depth, c :: t => endTagRound (overElementIn fuel) depth (c :: t)

/-- Moves over the rest of an element, the one open element to begin with. -/
def overElement (t : Text) : Option (Bool × Text) := overElementIn (t.length + 1) .startTag 1 t

/-! ## The loops and the readers -/

variable {fuel : Nat} {t : Text}

theorem ending_eq_true_iff {o : Option Text} : ending o = (true, t) ↔ o = some t := by
  cases o <;> simp [ending]

@[simp] theorem ending_snd (o : Option Text) : (ending o).2 = o.getD [] := by
  cases o <;> rfl

theorem takeBrace_ending (o : Option Text) (h : ∀ t, o = some t → startsWith ['}'] t = true) :
    takeBrace (ending o) = ending (o.bind afterBrace) := by
  cases o with
  | none => rfl
  | some t =>
    obtain ⟨u, rfl⟩ := startsWith_iff.1 (h t rfl)
    rfl

/-- Moving over a form, given loops that answer as the readers do behind the opening mark. -/
theorem overFormWith_eq {template braces : Text → Bool × Text}
    (ht : ∀ u, Advances t u → template u = ending (skipTemplate u))
    (hb : ∀ u, Advances t u → braces u = ending (skipBraces u)) :
    overFormWith template braces t = ((skipForm t).isSome, (skipForm t).getD t) := by
  unfold overFormWith
  split
  · next u => rfl
  · next u => rfl
  · next u => rfl
  · next u => rfl
  · next u =>
    rw [ht u (.cons (List.suffix_refl u)), ending_snd]
    rfl
  · next u =>
    rw [hb u (.cons (List.suffix_refl u)), ending_snd]
    rfl
  · next h1 h2 h3 h4 h5 h6 =>
    have hnone : skipForm t = none := by
      unfold skipForm skipFormWith
      split <;> simp_all
    rw [hnone]
    rfl

theorem overBraces_of_upTo {upTo : Text → Text → Bool × Text}
    (h : upTo ['}'] t = ending (skipUntil ['}'] t)) :
    takeBrace (upTo ['}'] t) = ending (skipBraces t) := by
  rw [h]
  exact takeBrace_ending _ fun u hu => skipUntilIn_startsWith _ _ _ _ hu

/-- One round in a template literal, given loops that answer as the readers do further on. -/
theorem overTemplateIn_succ
    (ht : ∀ u, Advances t u → overTemplateIn fuel u = ending (skipTemplate u))
    (hu : ∀ u, Advances t u → upToIn fuel ['}'] u = ending (skipUntil ['}'] u)) :
    overTemplateIn (fuel + 1) t = ending (skipTemplate t) := by
  have hs : seekAny ['\\', '\x60', '$'] t <:+ t := seekAny_suffix _ t
  rw [skipTemplate_eq]
  unfold overTemplateIn templateRound
  split
  · next heq =>
    rw [heq]
    rfl
  · next u heq =>
    rw [heq] at hs ⊢
    exact ht _ (.from_suffix hs (.cons (List.drop_suffix 1 u)))
  · next u heq =>
    rw [heq] at hs ⊢
    have hstep : Advances t u := .from_suffix hs (.cons (List.suffix_cons _ u))
    rw [overBraces_of_upTo (hu u hstep)]
    cases hgroup : skipBraces u with
    | none =>
      simp only [ending, hgroup]
      rfl
    | some v =>
      simp only [ending, hgroup, Option.bind_some]
      exact ht v (hstep.of_suffix (skipBraces_suffix u v hgroup))
  · next u heq =>
    rw [heq]
    rfl
  · next c u hbackslash hhole hquote heq =>
    rw [heq] at hs ⊢
    have hstep : Advances t u := .from_suffix hs (.cons (List.suffix_refl u))
    split
    · next h => simp at h
    · next h => exact absurd (List.cons.inj h).1 hbackslash
    · next h => exact absurd (List.cons.inj h).1 hquote
    · next v h => exact absurd (List.cons.inj h).2 (hhole v (List.cons.inj h).1)
    · next h =>
      obtain ⟨_, rfl⟩ := List.cons.inj h
      exact ht _ hstep

/-- One round of the search for a terminator. -/
theorem upToIn_succ (terminator : Text)
    (ht : ∀ u, Advances t u → overTemplateIn fuel u = ending (skipTemplate u))
    (hu : ∀ terminator u, Advances t u →
      upToIn fuel terminator u = ending (skipUntil terminator u)) :
    upToIn (fuel + 1) terminator t = ending (skipUntil terminator t) := by
  rw [skipUntil_eq]
  unfold upToIn untilRound
  rw [show skipFormWith skipTemplate skipBraces t = skipForm t from rfl,
    overFormWith_eq ht fun u h => overBraces_of_upTo (hu _ u h)]
  by_cases hhere : startsWith terminator t = true
  · rw [if_pos hhere, if_pos hhere]
    rfl
  rw [if_neg hhere, if_neg hhere]
  cases hform : skipForm t with
  | some u => exact hu _ u (skipForm_advances hform)
  | none =>
    dsimp only [Option.isSome_none, Option.getD_none]
    split
    · next heq => simp at heq
    · next u heq =>
      obtain ⟨_, rfl⟩ := Prod.mk.inj heq
      exact hu _ u (.cons (List.suffix_refl u))
    · next hbrace heq =>
      obtain ⟨_, rfl⟩ := Prod.mk.inj heq
      have hbrace' (v : Text) : t ≠ '}' :: v := hbrace v
      split
      · next hspent =>
        split
        · next v => exact absurd rfl (hbrace' v)
        · rw [hspent]
          rfl
      · next hfound =>
        have hnil : t ≠ [] := by
          rintro rfl
          exact hfound rfl
        have hstep := seek_advances hnil (skipFormWith_eq_none hform hbrace')
        split
        · next v => exact absurd rfl (hbrace' v)
        split
        · next hspent => exact absurd hspent hfound
        · exact hu _ _ hstep

/-- The two loops that call each other, together. -/
theorem overIn_eq (fuel : Nat) :
    (∀ t, t.length < fuel → overTemplateIn fuel t = ending (skipTemplate t)) ∧
      ∀ terminator t, t.length < fuel →
        upToIn fuel terminator t = ending (skipUntil terminator t) := by
  induction fuel with
  | zero =>
    exact ⟨fun t h => absurd h (Nat.not_lt_zero _), fun _ t h => absurd h (Nat.not_lt_zero _)⟩
  | succ fuel ih =>
    obtain ⟨iht, ihu⟩ := ih
    have hshort (t u : Text) (hlength : t.length < fuel + 1) (h : Advances t u) :
        u.length < fuel := by
      have := h.shorter
      omega
    constructor
    · intro t hlength
      exact overTemplateIn_succ (fun u h => iht u (hshort t u hlength h))
        fun u h => ihu _ u (hshort t u hlength h)
    · intro terminator t hlength
      exact upToIn_succ terminator (fun u h => iht u (hshort t u hlength h))
        fun _ u h => ihu _ u (hshort t u hlength h)

/-- **The search for a terminator.** -/
theorem upTo_eq (terminator t : Text) : upTo terminator t = ending (skipUntil terminator t) :=
  (overIn_eq (t.length + 1)).2 terminator t (Nat.lt_succ_self _)

theorem overTemplate_eq (t : Text) : overTemplate t = ending (skipTemplate t) :=
  (overIn_eq (t.length + 1)).1 t (Nat.lt_succ_self _)

/-- **Groups in braces.** -/
theorem overBraces_eq (t : Text) : overBraces t = ending (skipBraces t) :=
  overBraces_of_upTo (upTo_eq ['}'] t)

theorem overForm_eq (t : Text) : overForm t = ((skipForm t).isSome, (skipForm t).getD t) :=
  overFormWith_eq (fun u _ => overTemplate_eq u) fun u _ => overBraces_eq u

section Elements

variable {next : JsxPlace → Nat → Text → Option (Bool × Text)} {around : Nat}
  (hnext : ∀ place around u, Advances t u →
    next place (around + 1) u = some (ending (skipJsxFrom place around u)))

include hnext

theorem orSpent_eq {place : JsxPlace} {u : Text} (h : Advances t u) :
    orSpent (next place (around + 1)) u = some (ending (skipJsxFrom place around u)) := by
  cases u with
  | nil => rfl
  | cons c u => exact hnext _ _ _ h

theorem leaveElement_eq {u : Text} (h : Advances t u) :
    leaveElement (next .content) (around + 1) u
      = some (ending (match around with
          | 0 => some u
          | outer + 1 => skipJsxFrom .content outer u)) := by
  cases around with
  | zero => rfl
  | succ outer => exact hnext _ _ _ h

theorem startTagRound_eq (ht : t ≠ []) :
    startTagRound next (around + 1) t = some (ending (skipJsxFrom .startTag around t)) := by
  rw [skipJsxFrom_eq]
  unfold startTagRound
  split
  · next u => exact leaveElement_eq hnext (.cons (List.suffix_cons _ u))
  · next u => exact hnext _ _ _ (.cons (List.suffix_refl u))
  · next hclose hopen =>
    rw [jsxRound_startTag hclose hopen ht, overForm_eq]
    unfold tagRound
    cases hform : skipForm t with
    | some u => exact hnext _ _ _ (skipForm_advances hform)
    | none =>
      exact orSpent_eq hnext (seek_advances ht (atTagStop_eq_false hform hclose hopen))

theorem contentRound_eq (ht : t ≠ []) :
    contentRound next (around + 1) t = some (ending (skipJsxFrom .content around t)) := by
  rw [skipJsxFrom_eq]
  unfold contentRound
  split
  · next u =>
    have hstep : Advances ('{' :: u) u := .cons (List.suffix_refl u)
    rw [overBraces_eq]
    show _ = some (ending ((skipBraces u).bind (skipJsxFrom .content around)))
    cases hgroup : skipBraces u with
    | none => rfl
    | some v => exact hnext _ _ _ (hstep.of_suffix (skipBraces_suffix u v hgroup))
  · next u => exact hnext _ _ _ (.cons (List.suffix_cons _ u))
  · next u hslash =>
    rw [jsxRound_open fun v h => hslash v h]
    exact hnext _ _ _ (.cons (List.suffix_refl u))
  · next hbrace hend hopen =>
    rw [jsxRound_content hbrace hopen ht]
    obtain ⟨c, u, rfl⟩ := List.exists_cons_of_ne_nil ht
    refine orSpent_eq hnext (seekAny_advances ?_)
    have hc : c ≠ '{' := fun h => hbrace u (by rw [h])
    have hc' : c ≠ '<' := fun h => hopen u (by rw [h])
    simp [hc, hc']

theorem endTagRound_eq (ht : t ≠ []) :
    endTagRound next (around + 1) t = some (ending (skipJsxFrom .endTag around t)) := by
  rw [skipJsxFrom_eq]
  unfold endTagRound
  split
  · next u => exact leaveElement_eq hnext (.cons (List.suffix_refl u))
  · next hclose =>
    rw [jsxRound_endTag hclose ht]
    obtain ⟨c, u, rfl⟩ := List.exists_cons_of_ne_nil ht
    refine orSpent_eq hnext (seekAny_advances ?_)
    have hc : c ≠ '>' := fun h => hclose u (by rw [h])
    simp [hc]

end Elements

/-- With one open element more than there are around the innermost, the count stays positive
wherever the loop goes. -/
theorem overElementIn_eq (fuel : Nat) (place : JsxPlace) (around : Nat) (t : Text)
    (h : t.length < fuel) :
    overElementIn fuel place (around + 1) t = some (ending (skipJsxFrom place around t)) := by
  induction fuel generalizing place around t with
  | zero => exact absurd h (Nat.not_lt_zero _)
  | succ fuel ih =>
    have hnext (place : JsxPlace) (around : Nat) (u : Text) (hstep : Advances t u) :
        overElementIn fuel place (around + 1) u = some (ending (skipJsxFrom place around u)) := by
      apply ih
      have := hstep.shorter
      omega
    cases t with
    | nil => cases place <;> rfl
    | cons c t =>
      have ht : c :: t ≠ [] := List.cons_ne_nil c t
      cases place with
      | startTag => exact startTagRound_eq hnext ht
      | content => exact contentRound_eq hnext ht
      | endTag => exact endTagRound_eq hnext ht

/-- **Elements.** The count of open elements never falls below zero. -/
theorem overElement_eq (t : Text) : overElement t = some (ending (skipJsx t)) :=
  overElementIn_eq _ .startTag 0 t (Nat.lt_succ_self _)

end Loop

end HybridMarkup.HostCode
