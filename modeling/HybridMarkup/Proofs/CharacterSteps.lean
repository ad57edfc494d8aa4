/-
The search for the next interesting place is an optimisation.

The readers of host code pass whole runs of characters at a time, up to where one of a few marks
stands. The reference of this file does not: it moves one character at a time and asks everywhere
whether what it looks for stands here, or whether a string, a template literal, a comment or a group
begins, over which it then jumps as a whole. The readers come to the same places as the reference
(`skip_eq_walk`), which for each of them is one equation about a single character (`skipUntil_step`,
`skipTemplate_step`, `skipBody_step`).

Two facts carry those equations, and they are what has to be looked at when a list of marks changes.
A search never passes over a place at which a step would have done anything but go on: so a
terminator has to begin with a mark, and the marks of a body must include whatever the end tag may
look like. And a halt at a mark that turns out to be nothing costs one character only. That happens
where the letters of an end tag are taken with Unicode's idea of case, by which a long s is an `s`.
-/
import HybridMarkup.Proofs.CursorLoops
import HybridMarkup.Proofs.LineEndingReaders

set_option autoImplicit false

namespace HybridMarkup

open Text

namespace HostCode

/-! ## The reference -/

/-- One step in a template literal. A hole is left to the reader of groups, and what is still to
come to `next`. -/
def templateStep (group next : Text → Option Text) : Text → Option Text
  | [] => none
  | '\\' :: t => next (t.drop 1)
  | '\x60' :: t => some t
  | '$' :: '{' :: t => (group t).bind next
  | _ :: t => next t

/-- One step to a terminator: none if it stands here, else over the form that begins here, else over
one character. -/
def untilStep (template group next : Text → Option Text) (terminator : Text) : Text → Option Text
  | [] => if startsWith terminator [] then some [] else none
  | c :: t =>
    if startsWith terminator (c :: t) then some (c :: t)
    else next ((skipFormWith template group (c :: t)).getD t)

mutual

/-- Walks over the rest of a template literal. -/
def walkTemplateIn : Nat → Text → Option Text
  | 0, _ => none
  | fuel + 1, t =>
    templateStep (fun t => (walkToIn fuel ['}'] t).bind afterBrace) (walkTemplateIn fuel) t

/-- Walks to a terminator. -/
def walkToIn : Nat → Text → Text → Option Text
  | 0, _, _ => none
  | fuel + 1, terminator, t =>
    untilStep (walkTemplateIn fuel) (fun t => (walkToIn fuel ['}'] t).bind afterBrace)
      (walkToIn fuel terminator) terminator t

end

/-- Walks over the rest of a template literal. Every step takes a character. -/
def walkTemplate (t : Text) : Option Text := walkTemplateIn (t.length + 1) t

/-- Walks to a terminator. -/
def walkTo (terminator t : Text) : Option Text := walkToIn (t.length + 1) terminator t

end HostCode

namespace RawElement

open HostCode

/-- What is left behind the form that begins here, of those that the body of the element has. -/
def form? : RawElement → Text → Option Text
  | _, '/' :: '*' :: t => some (skipBlockComment t)
  | _, '\'' :: t => some (skipString '\'' t).2
  | _, '"' :: t => some (skipString '"' t).2
  | script, '/' :: '/' :: t => some (skipLineComment t)
  | script, '\x60' :: t => some ((walkTemplate t).getD [])
  | _, _ => none

/-- One step in a body: none in front of the end tag, else over the form that begins here, else over
one character. -/
def bodyStep (e : RawElement) (next : Text → Text) : Text → Text
  | [] => []
  | c :: t => if e.atClosing (c :: t) then c :: t else next ((e.form? (c :: t)).getD t)

/-- Walks to the end of a body. -/
def walkBodyIn (e : RawElement) : Nat → Text → Text
  | 0, _ => []
  | fuel + 1, t => e.bodyStep (e.walkBodyIn fuel) t

/-- Walks to the end of a body. -/
def walkBody (e : RawElement) (t : Text) : Text := e.walkBodyIn (t.length + 1) t

end RawElement

/-! ## Steps of the readers -/

/-- A reader that goes to the next mark where nothing is to be done goes on behind one character as
it would have at that mark. -/
theorem Text.step_of_seek {α : Type} (go : Text → α) (stop : Text → Bool) {c : Char} {t : Text}
    (h : ∀ c t, stop (c :: t) = false → go (c :: t) = go (seek stop (c :: t)))
    (hc : stop (c :: t) = false) : go (c :: t) = go t := by
  have hseek : go (seek stop t) = go t := by
    cases t with
    | nil => rfl
    | cons d t =>
      by_cases hd : stop (d :: t) = true
      · rw [seek, if_pos hd]
      · exact (h d t (by simpa using hd)).symm
  rw [h c t hc, seek, hc]
  exact hseek

namespace HostCode

variable {terminator t u : Text} {c : Char}

/-- The terminators that are looked for: the ends of a group, of a mustache and of a directive. -/
def terminators : List Text := [['}'], mustacheClosing, ['"'], ['\'']]

/-- Every terminator begins with a mark at which the search halts. -/
theorem atStop_of_terminator (h : terminator ∈ terminators)
    (hhere : startsWith terminator t = true) :
    atStop t = true := by
  obtain ⟨u, rfl⟩ := startsWith_iff.1 hhere
  simp only [terminators, mustacheClosing, List.mem_cons, List.not_mem_nil, or_false] at h
  rcases h with rfl | rfl | rfl | rfl <;> rfl

theorem skipForm_eq_none_of_plain (h : atStop t = false) : skipForm t = none := by
  unfold skipForm skipFormWith
  unfold atStop at h
  split <;> simp_all

theorem ne_brace_of_plain (h : atStop t = false) (u : Text) : t ≠ '}' :: u := by
  rintro rfl
  simp [atStop] at h

theorem skipUntil_nil (h : terminator ∈ terminators) : skipUntil terminator [] = none := by
  rw [skipUntil_eq]
  unfold untilRound
  rw [if_neg]
  · rfl
  · intro hhere
    exact absurd (atStop_of_terminator h hhere) (by decide)

/-- Where there is nothing to be done, the search for a terminator goes on behind the character. -/
theorem skipUntil_plain (h : terminator ∈ terminators) (hplain : atStop (c :: t) = false) :
    skipUntil terminator (c :: t) = skipUntil terminator t := by
  refine step_of_seek _ _ (fun c t hplain => ?_) hplain
  have hnot : ¬ startsWith terminator (c :: t) = true := by
    intro hhere
    rw [atStop_of_terminator h hhere] at hplain
    exact absurd hplain (by decide)
  have hform : skipFormWith skipTemplate skipBraces (c :: t) = none :=
    skipForm_eq_none_of_plain hplain
  rw [skipUntil_eq]
  unfold untilRound
  rw [if_neg hnot, hform]
  dsimp only
  split
  · next heq => exact absurd heq (ne_brace_of_plain hplain _)
  cases hfound : seek atStop (c :: t) with
  | nil => exact (skipUntil_nil h).symm
  | cons d u => rfl

@[simp] theorem untilStep_cons {template group next : Text → Option Text} :
    untilStep template group next terminator (c :: t)
      = if startsWith terminator (c :: t) then some (c :: t)
        else next ((skipFormWith template group (c :: t)).getD t) := rfl

/-- **The search for a terminator, step by step.** -/
theorem skipUntil_step (h : terminator ∈ terminators) (t : Text) :
    skipUntil terminator t
      = untilStep skipTemplate skipBraces (skipUntil terminator) terminator t := by
  cases t with
  | nil => rfl
  | cons c t =>
    rw [untilStep_cons]
    by_cases hhere : startsWith terminator (c :: t) = true
    · rw [if_pos hhere, skipUntil_eq]
      unfold untilRound
      rw [if_pos hhere]
    rw [if_neg hhere]
    by_cases hplain : atStop (c :: t) = false
    · rw [skipUntil_plain h hplain]
      rw [show skipFormWith skipTemplate skipBraces (c :: t) = none from
        skipForm_eq_none_of_plain hplain]
      rfl
    rw [skipUntil_eq]
    unfold untilRound
    rw [if_neg hhere]
    cases hform : skipFormWith skipTemplate skipBraces (c :: t) with
    | some u => rfl
    | none =>
      -- a mark at which no form begins is a brace that closes nothing
      by_cases hbrace : c = '}'
      · subst hbrace
        rfl
      · have hne (u : Text) : c :: t ≠ '}' :: u := fun heq => hbrace (List.cons.inj heq).1
        exact absurd (skipFormWith_eq_none hform hne) hplain

/-- **A template literal, step by step.** -/
theorem skipTemplate_step (t : Text) :
    skipTemplate t = templateStep skipBraces skipTemplate t := by
  rw [skipTemplate_eq]
  cases t with
  | nil => rfl
  | cons c t =>
    by_cases hstop : ['\\', '\x60', '$'].contains c = true
    · -- the search is at a mark, and the step is the rest of the round
      have hseek : seekAny ['\\', '\x60', '$'] (c :: t) = c :: t := by
        rw [seekAny, List.dropWhile_cons, hstop]
        rfl
      unfold templateRound
      rw [hseek]
      unfold templateStep
      split <;> simp_all
    · -- a plain character makes no difference to the round
      have hplain : ['\\', '\x60', '$'].contains c = false := by simpa using hstop
      have hseek : seekAny ['\\', '\x60', '$'] (c :: t) = seekAny ['\\', '\x60', '$'] t := by
        rw [seekAny, List.dropWhile_cons, hplain]
        rfl
      have hround : templateRound skipBraces skipTemplate (c :: t) = skipTemplate t := by
        rw [skipTemplate_eq t]
        unfold templateRound
        rw [hseek]
      rw [hround]
      unfold templateStep
      split <;> simp_all

/-! ## The readers and the reference -/

theorem templateStep_congr {group group' next next' : Text → Option Text} (hs : LeavesSuffix group')
    (hg : ∀ u, Advances t u → group u = group' u) (hn : ∀ u, Advances t u → next u = next' u) :
    templateStep group next t = templateStep group' next' t := by
  unfold templateStep
  split
  · rfl
  · next u => exact hn _ (.cons (List.drop_suffix 1 u))
  · rfl
  · next u =>
    have hstep : Advances ('$' :: '{' :: u) u := .cons (List.suffix_cons _ u)
    rw [hg u hstep]
    cases hv : group' u with
    | none => rfl
    | some v => exact hn v (hstep.of_suffix (hs u v hv))
  · next u _ _ _ => exact hn u (.cons (List.suffix_refl u))

theorem untilStep_congr {template template' group group' next next' : Text → Option Text}
    (hst : LeavesSuffix template') (hsg : LeavesSuffix group')
    (ht : ∀ u, Advances t u → template u = template' u)
    (hg : ∀ u, Advances t u → group u = group' u) (hn : ∀ u, Advances t u → next u = next' u) :
    untilStep template group next terminator t = untilStep template' group' next' terminator t := by
  unfold untilStep
  split
  · rfl
  · next c t =>
    rw [skipFormWith_congr ht hg]
    split
    · rfl
    · cases hform : skipFormWith template' group' (c :: t) with
      | some u => exact hn u (skipFormWith_advances hst hsg hform)
      | none => exact hn t (.cons (List.suffix_refl t))

/-- The two walks that call each other, together. -/
theorem walkIn_eq (fuel : Nat) :
    (∀ t, t.length < fuel → walkTemplateIn fuel t = skipTemplate t) ∧
      ∀ terminator ∈ terminators, ∀ t, t.length < fuel →
        walkToIn fuel terminator t = skipUntil terminator t := by
  induction fuel with
  | zero => exact ⟨fun t h => absurd h (Nat.not_lt_zero _),
      fun _ _ t h => absurd h (Nat.not_lt_zero _)⟩
  | succ fuel ih =>
    obtain ⟨iht, ihu⟩ := ih
    have hshort (t u : Text) (hlength : t.length < fuel + 1) (h : Advances t u) :
        u.length < fuel := by
      have := h.shorter
      omega
    have hgroup (t u : Text) (hlength : t.length < fuel + 1) (h : Advances t u) :
        (walkToIn fuel ['}'] u).bind afterBrace = skipBraces u := by
      rw [ihu ['}'] List.mem_cons_self u (hshort t u hlength h)]
      rfl
    constructor
    · intro t hlength
      rw [skipTemplate_step]
      exact templateStep_congr skipBraces_suffix (hgroup t · hlength)
        fun u h => iht u (hshort t u hlength h)
    · intro terminator hterminator t hlength
      rw [skipUntil_step hterminator]
      exact untilStep_congr skipTemplate_suffix skipBraces_suffix
        (fun u h => iht u (hshort t u hlength h)) (hgroup t · hlength)
        fun u h => ihu terminator hterminator u (hshort t u hlength h)

theorem skipTemplate_eq_walk (t : Text) : skipTemplate t = walkTemplate t :=
  ((walkIn_eq _).1 t (Nat.lt_succ_self _)).symm

theorem skipUntil_eq_walk (h : terminator ∈ terminators) (t : Text) :
    skipUntil terminator t = walkTo terminator t :=
  ((walkIn_eq _).2 terminator h t (Nat.lt_succ_self _)).symm

end HostCode

namespace RawElement

open HostCode

variable {e : RawElement} {t : Text} {c : Char}

/-! ## The bodies of script and style elements -/

theorem startsWithFolded_of_ignoringCase {beginning : Text}
    (h : startsWithIgnoringCase beginning t = true) : startsWithFolded beginning t = true := by
  induction beginning generalizing t with
  | nil => rfl
  | cons b beginning ih =>
    cases t with
    | nil => simp [startsWithIgnoringCase] at h
    | cons c t =>
      simp only [startsWithIgnoringCase, Bool.and_eq_true, beq_iff_eq] at h
      simp only [startsWithFolded, ih h.2, Bool.and_true, beq_iff_eq, foldCase, h.1]

/-- The search halts at every place where the end tag stands. -/
theorem atStop_of_atClosing (h : e.atClosing t = true) : e.atStop t = true := by
  have hfolded : startsWithFolded e.closing t = true := startsWithFolded_of_ignoringCase h
  unfold atStop
  split
  · rfl
  · simp [atClosing, closing, startsWithIgnoringCase] at h
  · rfl
  · rfl
  · simp [atClosing, closing, startsWithIgnoringCase] at h
  · exact hfolded

/-- At a place where the search halts, a form of the body is a form of the host language. -/
theorem form?_of_atStop (h : e.atStop t = true) : e.form? t = skipForm t := by
  unfold skipForm skipFormWith
  split
  · next u =>
    have hscript : e = script := by simpa [atStop] using h
    subst hscript
    rfl
  · next u => rfl
  · next u => rfl
  · next u => rfl
  · next u =>
    have hscript : e = script := by simpa [atStop] using h
    subst hscript
    rw [skipTemplate_eq_walk]
    rfl
  · next u =>
    -- no end tag begins with a brace
    cases e <;> exact absurd h Bool.false_ne_true
  · next h1 h2 h3 h4 h5 h6 =>
    unfold form?
    split <;> simp_all

/-- Elsewhere there is none. -/
theorem form?_of_not_atStop (h : e.atStop t = false) : e.form? t = none := by
  cases e <;> unfold form? <;> split <;> simp_all [atStop]

@[simp] theorem bodyStep_cons {next : Text → Text} :
    e.bodyStep next (c :: t)
      = if e.atClosing (c :: t) then c :: t else next ((e.form? (c :: t)).getD t) := rfl

/-- **A body, step by step.** -/
theorem skipBody_step (e : RawElement) (t : Text) : e.skipBody t = e.bodyStep e.skipBody t := by
  rw [skipBody_eq]
  cases t with
  | nil => rfl
  | cons c t =>
    rw [bodyStep_cons]
    by_cases hstop : e.atStop (c :: t) = true
    · rw [bodyRound, seek, if_pos hstop, form?_of_atStop hstop]
    · have hplain : e.atStop (c :: t) = false := by simpa using hstop
      have hclosing : ¬ e.atClosing (c :: t) = true := fun h => hstop (atStop_of_atClosing h)
      rw [if_neg hclosing, form?_of_not_atStop hplain, Option.getD_none, skipBody_eq e t, bodyRound,
        seek, if_neg hstop, bodyRound]

theorem form?_advances (e : RawElement) (c : Char) (t : Text) :
    Advances (c :: t) ((e.form? (c :: t)).getD t) := by
  by_cases hstop : e.atStop (c :: t) = true
  · rw [form?_of_atStop hstop]
    exact skipForm_getD_advances c t
  · rw [form?_of_not_atStop (by simpa using hstop)]
    exact .cons (List.suffix_refl t)

theorem bodyStep_congr {next next' : Text → Text} (hn : ∀ u, Advances t u → next u = next' u) :
    e.bodyStep next t = e.bodyStep next' t := by
  cases t with
  | nil => rfl
  | cons c t =>
    rw [bodyStep_cons, bodyStep_cons]
    split
    · rfl
    · exact hn _ (e.form?_advances c t)

theorem walkBodyIn_eq (e : RawElement) (fuel : Nat) (t : Text) (h : t.length < fuel) :
    e.walkBodyIn fuel t = e.skipBody t := by
  induction fuel generalizing t with
  | zero => exact absurd h (Nat.not_lt_zero _)
  | succ fuel ih =>
    rw [skipBody_step]
    apply bodyStep_congr
    intro u hstep
    apply ih
    have := hstep.shorter
    omega

theorem skipBody_eq_walk (e : RawElement) (t : Text) : e.skipBody t = e.walkBody t :=
  (walkBodyIn_eq e _ t (Nat.lt_succ_self _)).symm

/-- The place at which `u` is left of the body `t` is outside of its strings and comments. -/
inductive Outside (e : RawElement) : Text → Text → Prop where
  | here (t : Text) : e.Outside t t
  | step {c : Char} {t u : Text} : e.Outside ((e.form? (c :: t)).getD t) u → e.Outside (c :: t) u

theorem Outside.suffix {u : Text} (h : e.Outside t u) : u <:+ t := by
  induction h with
  | here t => exact List.suffix_refl t
  | step _ ih => exact ih.trans (form?_advances _ _ _).suffix

/-- A body ends outside of its strings and comments, in front of the end tag or at the end. -/
theorem outside_skipBody (e : RawElement) (t : Text) :
    e.Outside t (e.skipBody t) ∧ (e.atClosing (e.skipBody t) = true ∨ e.skipBody t = []) := by
  induction hn : t.length using Nat.strongRecOn generalizing t with
  | ind n ih =>
    subst hn
    rw [skipBody_step]
    cases t with
    | nil => exact ⟨.here [], .inr rfl⟩
    | cons c t =>
      rw [bodyStep_cons]
      split
      · next hclosing => exact ⟨.here _, .inl hclosing⟩
      · obtain ⟨hout, hend⟩ := ih _ (form?_advances e c t).shorter _ rfl
        exact ⟨.step hout, hend⟩

/-- No end tag in front of the end of a body is outside of its strings and comments. -/
theorem Outside.suffix_skipBody {u : Text} (h : e.Outside t u) (hclosing : e.atClosing u = true) :
    u <:+ e.skipBody t := by
  induction h with
  | here t =>
    have hstays : e.skipBody t = t := by
      rw [skipBody_step]
      cases t with
      | nil => rfl
      | cons c t => rw [bodyStep_cons, if_pos hclosing]
    exact hstays.symm ▸ List.suffix_refl t
  | @step c t u hout ih =>
    rw [skipBody_step, bodyStep_cons]
    split
    · exact (Outside.step hout).suffix
    · exact ih hclosing

end RawElement

/-! ## The search is an optimisation -/

namespace HostCode

/-- **The readers come to the same places as the reference.** For every terminator that is looked
for, the loop ends where a walk of single steps ends, and with the same answer. The body of a script
or a style element ends where a walk ends, which is the first place outside of its strings and
comments at which its end tag stands, or the end of the text. -/
theorem skip_eq_walk {terminator : Text} (h : terminator ∈ terminators) (e : RawElement)
    (t : Text) :
    (Loop.upTo terminator t = ending (walkTo terminator t) ∧
        skipUntil terminator t = walkTo terminator t) ∧
      e.skipBody t = e.walkBody t ∧
      e.Outside t (e.walkBody t) ∧ (e.atClosing (e.walkBody t) = true ∨ e.walkBody t = []) ∧
      ∀ u, e.Outside t u → e.atClosing u = true → u <:+ e.walkBody t := by
  have hbody := e.skipBody_eq_walk t
  obtain ⟨hout, hend⟩ := e.outside_skipBody t
  rw [hbody] at hout hend
  refine ⟨⟨?_, skipUntil_eq_walk h t⟩, hbody, hout, hend, ?_⟩
  · rw [Loop.upTo_eq, skipUntil_eq_walk h]
  · intro u hu hclosing
    rw [← hbody]
    exact hu.suffix_skipBody hclosing

/-- The end of a mustache in a string is none, and neither is an end tag in a comment. -/
theorem skip_eq_walk_mustache :
    mustacheClosing ∈ terminators ∧
      Loop.upTo mustacheClosing "a '\x7d\x7d' /* </script */ \x7d\x7d b".toList
        = (true, "\x7d\x7d b".toList) ∧
      RawElement.script.walkBody "a '\x7d\x7d' /* </script */ </Script>".toList
        = "</Script>".toList := by
  have hmem : mustacheClosing ∈ terminators := by decide
  have hwalk := skip_eq_walk hmem .script "a '\x7d\x7d' /* </script */ \x7d\x7d b".toList
  refine ⟨hmem, ?_, by decide +kernel⟩
  rw [hwalk.1.1]
  decide +kernel

end HostCode

end HybridMarkup
