/-
Readers that stop in front of a fence have not looked behind it.

Let two texts be the same up to and including a fence. A question about where one stands, asked
anywhere in front of the fence, has the same answer in both (`Blind`): what is asked for is either
shorter than a fence, or has no backtick in it, so the fence is as far as one has to look. A reader
comes to such places one after another, and as long as it stops in front of the fence, it has seen
the same in both texts and stops at the same place (`StopsBlind`). If it does not, nothing is said
of it.

The readers of host code call each other on shorter texts, and so the induction is on the number of
characters in front of the fence.
-/
import HybridMarkup.Proofs.ScannerRuns

set_option autoImplicit false

namespace HybridMarkup

open Text

/-- A question the answer to which does not depend on what is behind a fence. -/
def Blind {α : Type} (question : Text → α) : Prop :=
  ∀ c y y' : Text, question (c ++ (fence ++ y)) = question (c ++ (fence ++ y'))

/-- As long as it stops in front of the fence, a reader that is given fewer than `n` characters in
front of a fence does not depend on what is behind. -/
def BlindBelow (n : Nat) (reader : Text → Option Text) : Prop :=
  ∀ c : Text, c.length < n → ∀ y y' r : Text,
    reader (c ++ (fence ++ y)) = some (r ++ (fence ++ y)) →
      reader (c ++ (fence ++ y')) = some (r ++ (fence ++ y'))

/-- As long as it stops in front of a fence, a reader does not depend on what is behind. -/
def StopsBlind (reader : Text → Option Text) : Prop :=
  ∀ c y y' r : Text, reader (c ++ (fence ++ y)) = some (r ++ (fence ++ y)) →
    reader (c ++ (fence ++ y')) = some (r ++ (fence ++ y'))

theorem stopsBlind_iff {reader : Text → Option Text} :
    StopsBlind reader ↔ ∀ n, BlindBelow n reader :=
  ⟨fun h _ c _ => h c, fun h c => h (c.length + 1) c (Nat.lt_succ_self _)⟩

/-- What is not found in front of the fence in one text is not found there in the other. -/
theorem Blind.eq_none {α : Type} {find : Text → Option α} (h : Blind fun t => (find t).isSome)
    {c y y' : Text} (hnone : find (c ++ (fence ++ y)) = none) :
    find (c ++ (fence ++ y')) = none := by
  have hfind := h c y y'
  dsimp only at hfind
  rw [hnone] at hfind
  exact Option.not_isSome_iff_eq_none.1 (by simp [← hfind])

/-! ## Places in front of a fence -/

section Front

variable {c r u t w y : Text} {a b : Char}

/-- What is still to be read before a place in front of the fence is itself in front of it. -/
theorem exists_front (h : r ++ w <:+ u) : ∃ z, u = (z ++ r) ++ w := by
  obtain ⟨z, rfl⟩ := h
  exact ⟨z, (List.append_assoc z r w).symm⟩

theorem front_length (h : r ++ w <:+ c ++ w) : r.length ≤ c.length := by
  have := h.length_le
  rw [List.length_append, List.length_append] at this
  omega

theorem front_shorter (h : Advances (c ++ w) (r ++ w)) : r.length < c.length := by
  have := h.shorter
  rw [List.length_append, List.length_append] at this
  omega

/-- Nothing that has been read into the fence leads back in front of it. -/
theorem not_front (h : u <:+ t) (hshort : t.length < w.length) : u ≠ r ++ w := by
  rintro rfl
  have := h.length_le
  rw [List.length_append] at this
  omega

/-- A character that is not in the fence is in front of it. -/
theorem front_cons (h : c ++ (fence ++ y) = a :: t) (ha : a ≠ '\x60') :
    ∃ c', c = a :: c' ∧ t = c' ++ (fence ++ y) := by
  cases c with
  | nil =>
    obtain ⟨rfl, _⟩ := List.cons.inj h
    exact absurd rfl ha
  | cons d c =>
    obtain ⟨rfl, rfl⟩ := List.cons.inj h
    exact ⟨c, rfl, rfl⟩

theorem front_ne_nil (c y : Text) : c ++ (fence ++ y) ≠ [] := by simp [fence]

/-- What does not begin with a character in front of one fence does not in front of another. -/
theorem front_ne (ha : a ≠ '\x60') (h : ∀ u, c ++ (fence ++ y) ≠ a :: u) (y' u : Text) :
    c ++ (fence ++ y') ≠ a :: u := by
  intro heq
  obtain ⟨c', rfl, _⟩ := front_cons heq ha
  exact h _ rfl

theorem front_cons_cons (h : c ++ (fence ++ y) = a :: b :: t) (ha : a ≠ '\x60') (hb : b ≠ '\x60') :
    ∃ c', c = a :: b :: c' ∧ t = c' ++ (fence ++ y) := by
  obtain ⟨c', rfl, hrest⟩ := front_cons h ha
  obtain ⟨c'', rfl, rfl⟩ := front_cons hrest.symm hb
  exact ⟨c'', rfl, rfl⟩

end Front

/-! ## Questions -/

/-- A text without a backtick is found in front of the fence, if it is found. -/
theorem strip?_front {beginning : Text} (h : '\x60' ∉ beginning) (c y : Text) :
    strip? beginning (c ++ (fence ++ y)) = (strip? beginning c).map (· ++ (fence ++ y)) := by
  induction beginning generalizing c with
  | nil => rfl
  | cons b beginning ih =>
    rw [List.mem_cons, not_or] at h
    cases c with
    | nil => simp [strip?, fence, Ne.symm h.1]
    | cons d c =>
      by_cases hd : b = d
      · simpa [strip?, hd] using ih h.2 c
      · simp [strip?, hd]

theorem blind_startsWith {beginning : Text} (h : '\x60' ∉ beginning) :
    Blind (startsWith beginning) := by
  intro c y y'
  rw [startsWith, startsWith, strip?_front h, strip?_front h, Option.isSome_map, Option.isSome_map]

/-- So is a fence, which is not longer than a fence. -/
theorem blind_startsWith_fence : Blind (startsWith fence) := by
  intro c y y'
  rcases c with _ | ⟨a, _ | ⟨b, _ | ⟨d, c⟩⟩⟩ <;>
    simp [startsWith, strip?, fence, apply_ite Option.isSome]

theorem blind_afterFenceLine : Blind fun t => (afterFenceLine? t).isSome := by
  intro c y y'
  rcases c with _ | ⟨a, c⟩
  · rfl
  by_cases hn : a = '\n'
  · subst hn
    exact blind_startsWith_fence c y y'
  by_cases hr : a = '\r'
  · subst hr
    rcases c with _ | ⟨b, c⟩
    · rfl
    by_cases hb : b = '\n'
    · subst hb
      exact blind_startsWith_fence c y y'
    · simp [afterFenceLine?, hb]
  · simp [afterFenceLine?, hn, hr]

theorem blind_commentOpening : Blind (startsWith commentOpening) := blind_startsWith (by decide)

theorem blind_atTextEnd (dialect : Dialect) : Blind (atTextEnd dialect) := by
  intro c y y'
  rcases c with _ | ⟨a, c⟩
  · simp [atTextEnd, fence, isLineBreak, startsWith, strip?, commentOpening]
  · have hopens := blind_commentOpening (a :: c) y y'
    have hhead : (c ++ (fence ++ y)).head? = (c ++ (fence ++ y')).head? := by
      cases c <;> rfl
    simp only [List.cons_append] at hopens ⊢
    rw [atTextEnd, atTextEnd, hopens, hhead]

namespace HostCode

theorem blind_atStop : Blind atStop := by
  intro c y y'
  rcases c with _ | ⟨a, _ | ⟨b, c⟩⟩
  · rfl
  · unfold atStop
    split <;> simp_all [fence]
  · unfold atStop
    split <;> simp_all

theorem blind_atTagStop : Blind atTagStop := by
  intro c y y'
  rcases c with _ | ⟨a, _ | ⟨b, c⟩⟩
  · rfl
  · unfold atTagStop
    split <;> simp_all [fence]
  · unfold atTagStop
    split <;> simp_all

/-- What is first behind characters that are passed over is in the fence at the latest. -/
theorem blind_head_dropWhile {p : Char → Bool} (hp : p '\x60' = false) :
    Blind fun t => (t.dropWhile p).head? := by
  intro c y y'
  induction c with
  | nil => simp [fence, hp]
  | cons a c ih =>
    by_cases ha : p a
    · simpa [ha] using ih
    · simp [ha]

theorem blind_atBlankLine : Blind atBlankLine := by
  intro c y y'
  have hhead (t : Text) : atBlankLine ('\n' :: t)
      = (t.dropWhile isLineSpace).head?.all fun c => c == '\n' || c == '\r' := by
    rw [atBlankLine]
    cases t.dropWhile isLineSpace <;> rfl
  rcases c with _ | ⟨a, c⟩
  · rfl
  by_cases ha : a = '\n'
  · subst ha
    rw [List.cons_append, List.cons_append, hhead, hhead]
    exact congrArg _ (blind_head_dropWhile (by decide) c y y')
  · simp [atBlankLine, ha]

theorem blind_atImportStop : Blind atImportStop := by
  intro c y y'
  rcases c with _ | ⟨a, c⟩
  · rfl
  have hblank := blind_atBlankLine (a :: c) y y'
  by_cases hq : a = '\''
  · simp [atImportStop, hq]
  by_cases hd : a = '"'
  · simp [atImportStop, hd]
  · simpa [atImportStop, hq, hd] using hblank

theorem blind_atImport : Blind atImport := by
  intro c y y'
  unfold atImport
  rw [strip?_front (by decide), strip?_front (by decide)]
  cases strip? importKeyword c with
  | none => rfl
  | some rest => cases rest <;> rfl

end HostCode

/-! ## Runs of characters -/

theorem stopsBlind_strip? (beginning : Text) : StopsBlind (strip? beginning) := by
  intro c y y' r h
  rw [strip?_eq_some, ← List.append_assoc beginning, List.append_cancel_right_eq] at h
  rw [strip?_eq_some, h, List.append_assoc]

theorem stopsBlind_seek {stop : Text → Bool} (h : Blind stop) :
    StopsBlind fun t => some (seek stop t) := by
  intro c y y' r hseek
  rw [Option.some.injEq] at hseek ⊢
  induction c with
  | nil =>
    have hstop := h [] y y'
    rw [List.nil_append, List.nil_append] at hstop
    rw [List.nil_append] at hseek ⊢
    by_cases hhere : stop (fence ++ y) = true
    · have hr : r = [] := by
        rw [fence, List.cons_append, seek, if_pos (by exact hhere)] at hseek
        exact List.append_left_eq_self.1 hseek.symm
      rw [hr, fence, List.cons_append, seek, if_pos (by exact hstop ▸ hhere)]
      rfl
    -- what is sought is not here, and there is no way back to here
    · rw [fence, List.cons_append, seek, if_neg (by exact hhere)] at hseek
      exact absurd hseek (not_front (seek_suffix stop _) (by simp))
  | cons a c ih =>
    have hstop := h (a :: c) y y'
    rw [List.cons_append, List.cons_append] at hstop
    rw [List.cons_append, seek] at hseek ⊢
    by_cases hhere : stop (a :: (c ++ (fence ++ y))) = true
    · rw [if_pos hhere, ← List.cons_append, List.append_cancel_right_eq] at hseek
      rw [if_pos (hstop ▸ hhere), ← hseek, List.cons_append]
    · rw [if_neg hhere] at hseek
      rw [if_neg (hstop ▸ hhere)]
      exact ih hseek

theorem dropWhile_eq_seek (p : Char → Bool) (t : Text) :
    t.dropWhile p = seek (fun t => t.head?.any fun c => !p c) t := by
  induction t with
  | nil => rfl
  | cons c t ih => by_cases hc : p c <;> simp [seek, hc, ih]

theorem blind_head {α : Type} (question : Option Char → α) : Blind fun t => question t.head? := by
  intro c y y'
  cases c <;> rfl

theorem stopsBlind_dropWhile (p : Char → Bool) : StopsBlind fun t => some (t.dropWhile p) := by
  simp only [dropWhile_eq_seek]
  exact stopsBlind_seek (blind_head fun head => head.any fun c => !p c)

theorem stopsBlind_seekAny (chars : List Char) : StopsBlind fun t => some (seekAny chars t) :=
  stopsBlind_dropWhile _

theorem stopsBlind_passWhile? (p : Char → Bool) : StopsBlind (passWhile? p) := by
  intro c y y' r h
  cases c with
  | nil =>
    rw [List.nil_append, fence, List.cons_append, passWhile?] at h
    split at h
    · exact absurd (Option.some.inj h) (not_front (List.dropWhile_suffix p) (by simp))
    · simp at h
  | cons a c =>
    rw [List.cons_append, passWhile?] at h ⊢
    split at h
    · next ha =>
      rw [if_pos ha]
      exact stopsBlind_dropWhile p c y y' r h
    · simp at h

theorem BlindBelow.bind {n : Nat} {reader reader' : Text → Option Text} (h : BlindBelow n reader)
    (h' : BlindBelow n reader') (hs : HostCode.LeavesSuffix reader)
    (hs' : HostCode.LeavesSuffix reader') : BlindBelow n fun t => (reader t).bind reader' := by
  intro c hc y y' r hread
  obtain ⟨u, hu, hr⟩ := Option.bind_eq_some_iff.1 hread
  obtain ⟨z, rfl⟩ := exists_front (hs' u _ hr)
  have hshorter : (z ++ r).length ≤ c.length := by
    have := (hs _ _ hu).length_le
    simp only [List.length_append] at this ⊢
    omega
  refine Option.bind_eq_some_iff.2 ⟨_, h c hc y y' _ hu, ?_⟩
  exact h' _ (Nat.lt_of_le_of_lt hshorter hc) y y' r hr

namespace HostCode

theorem skipString_cons {quote c : Char} {t : Text} (hc : c ≠ '\\') :
    skipString quote (c :: t) = if c = quote then (true, t)
      else if c = '\n' || c = '\r' then (false, c :: t) else skipString quote t :=
  skipString.eq_4 quote c t (fun h => absurd h hc) fun _ _ h => absurd h hc

/-- A string is closed or cut short in front of the fence, if its reading stops there. -/
theorem skipString_front {quote : Char} (hquote : quote ≠ '\x60') (c y y' r : Text)
    (h : (skipString quote (c ++ (fence ++ y))).2 = r ++ (fence ++ y)) :
    skipString quote (c ++ (fence ++ y'))
      = ((skipString quote (c ++ (fence ++ y))).1, r ++ (fence ++ y')) := by
  induction hn : c.length using Nat.strongRecOn generalizing c with
  | ind n ih =>
    subst hn
    rcases c with _ | ⟨a, c⟩
    · rw [List.nil_append, fence, List.cons_append, skipString_cons (by decide),
        if_neg (Ne.symm hquote), if_neg (by decide)] at h
      exact absurd h (not_front (skipString_suffix quote _) (by simp))
    by_cases ha : a = '\\'
    · subst ha
      rcases c with _ | ⟨b, c⟩
      · have hsuffix := skipString_suffix quote ('\x60' :: '\x60' :: y)
        exact absurd h (not_front hsuffix (by simp [fence]))
      · exact ih c.length (by simp only [List.length_cons]; omega) c h rfl
    · rw [List.cons_append, skipString_cons ha] at h ⊢
      rw [List.cons_append, skipString_cons ha]
      by_cases hclosed : a = quote
      · rw [if_pos hclosed, if_pos hclosed] at *
        rw [List.append_cancel_right_eq] at h
        rw [h]
      · rw [if_neg hclosed, if_neg hclosed] at *
        by_cases hbreak : (a = '\n' || a = '\r') = true
        · rw [if_pos hbreak, if_pos hbreak] at *
          rw [← List.cons_append, List.append_cancel_right_eq] at h
          rw [← h, List.cons_append]
        · rw [if_neg hbreak, if_neg hbreak] at *
          exact ih c.length (Nat.lt_succ_self _) c h rfl

/-! ## The recursive forms -/

variable {n : Nat} {template group next : Text → Option Text}

theorem blindBelow_afterBrace : BlindBelow n afterBrace := by
  intro c _ y y' r h
  unfold afterBrace at h
  split at h
  · next t heq =>
    obtain ⟨c', rfl, rfl⟩ := front_cons heq (by decide)
    rw [Option.some.injEq, List.append_cancel_right_eq] at h
    rw [← h]
    rfl
  · simp at h

theorem skipBlockComment_front (c y y' r : Text)
    (h : skipBlockComment (c ++ (fence ++ y)) = r ++ (fence ++ y)) :
    skipBlockComment (c ++ (fence ++ y')) = r ++ (fence ++ y') := by
  have hclosed : seek (startsWith ['*', '/']) (c ++ (fence ++ y)) ≠ [] → _ := seek_stops
  have hend : Blind (startsWith ['*', '/']) := blind_startsWith (by decide)
  have hblind := stopsBlind_seek hend c y y'
  unfold skipBlockComment seekTo at h ⊢
  cases hfound : seek (startsWith ['*', '/']) (c ++ (fence ++ y)) with
  | nil =>
    rw [hfound] at h
    simp [fence] at h
  | cons a found =>
    -- what is dropped is the end of the comment
    rw [hfound] at hclosed h
    obtain ⟨rest, hrest⟩ := startsWith_iff.1 (hclosed (List.cons_ne_nil _ _))
    rw [hrest] at h hfound
    obtain rfl : rest = r ++ (fence ++ y) := h
    rw [Option.some.inj (hblind ('*' :: '/' :: r) (congrArg some hfound))]
    rfl

/-- A reading that never comes to an end does not stop in front of the fence. -/
theorem eq_some_of_getD {o : Option Text} {r y : Text} (h : o.getD [] = r ++ (fence ++ y)) :
    o = some (r ++ (fence ++ y)) := by
  cases o with
  | none => simp [fence] at h
  | some rest => rw [← h, Option.getD_some]

/-- A form that begins in front of the fence. -/
theorem skipFormWith_front (ht : BlindBelow n template) (hg : BlindBelow n group)
    (hst : LeavesSuffix template) : BlindBelow (n + 1) (skipFormWith template group) := by
  intro c hc y y' r h
  unfold skipFormWith at h
  split at h
  · next t heq =>
    obtain ⟨c', rfl, rfl⟩ := front_cons_cons heq (by decide) (by decide)
    exact stopsBlind_seekAny _ c' y y' r h
  · next t heq =>
    obtain ⟨c', rfl, rfl⟩ := front_cons_cons heq (by decide) (by decide)
    exact congrArg some (skipBlockComment_front c' y y' r (Option.some.inj h))
  · next t heq =>
    obtain ⟨c', rfl, rfl⟩ := front_cons heq (by decide)
    exact congrArg (fun ending => some ending.2)
      (skipString_front (by decide) c' y y' r (Option.some.inj h))
  · next t heq =>
    obtain ⟨c', rfl, rfl⟩ := front_cons heq (by decide)
    exact congrArg (fun ending => some ending.2)
      (skipString_front (by decide) c' y y' r (Option.some.inj h))
  · next t heq =>
    have hread := eq_some_of_getD (Option.some.inj h)
    rcases c with _ | ⟨a, c⟩
    -- the quote is the first character of the fence
    · obtain ⟨_, rfl⟩ := List.cons.inj heq
      exact absurd rfl (not_front (hst _ _ hread) (by simp [fence]))
    · obtain ⟨rfl, rfl⟩ := List.cons.inj heq
      show some ((template (c ++ (fence ++ y'))).getD []) = _
      rw [ht c (Nat.lt_of_succ_lt_succ hc) y y' r hread, Option.getD_some]
  · next t heq =>
    obtain ⟨c', rfl, rfl⟩ := front_cons heq (by decide)
    have hread := eq_some_of_getD (Option.some.inj h)
    show some ((group (c' ++ (fence ++ y'))).getD []) = _
    rw [hg c' (Nat.lt_of_succ_lt_succ hc) y y' r hread, Option.getD_some]
  · simp at h

/-- Whether a form begins can be seen in front of the fence. -/
theorem blind_skipFormWith : Blind fun t => (skipFormWith template group t).isSome := by
  intro c y y'
  dsimp only
  rcases c with _ | ⟨a, _ | ⟨b, c⟩⟩
  · rfl
  · unfold skipFormWith
    split <;> simp_all [fence]
  · unfold skipFormWith
    split <;> simp_all

theorem templateRound_front (hg : BlindBelow n group) (hn : BlindBelow n next)
    (hsg : LeavesSuffix group) (hsn : LeavesSuffix next) :
    BlindBelow (n + 1) (templateRound group next) := by
  intro c hc y y' r h
  -- where the next character that matters is, is the same in both texts
  have hfound (z : Text)
      (hz : seekAny ['\\', '\x60', '$'] (c ++ (fence ++ y)) = z ++ (fence ++ y)) :
      seekAny ['\\', '\x60', '$'] (c ++ (fence ++ y')) = z ++ (fence ++ y') ∧ z.length ≤ n := by
    have hsuffix := seekAny_suffix ['\\', '\x60', '$'] (c ++ (fence ++ y))
    have hlength := front_length (hz ▸ hsuffix)
    exact ⟨Option.some.inj (stopsBlind_seekAny _ c y y' z (congrArg some hz)), by omega⟩
  unfold templateRound at h ⊢
  split at h
  · simp at h
  · next u heq =>
    obtain ⟨z, hz⟩ := exists_front (hsn _ _ h)
    rcases u with _ | ⟨e, u⟩
    · simp [fence] at hz
    · obtain rfl : u = z ++ r ++ (fence ++ y) := hz
      obtain ⟨heq', hlength⟩ := hfound ('\\' :: e :: (z ++ r)) heq
      rw [heq']
      exact hn _ (by simp only [List.length_cons] at hlength; omega) y y' r h
  · next u heq =>
    obtain rfl := Option.some.inj h
    rw [(hfound ('\x60' :: r) heq).1]
    rfl
  · next u heq =>
    obtain ⟨v, hv, hr⟩ := Option.bind_eq_some_iff.1 h
    obtain ⟨z, hz⟩ := exists_front ((hsn v _ hr).trans (hsg u v hv))
    subst hz
    obtain ⟨heq', hlength⟩ := hfound ('$' :: '{' :: (z ++ r)) heq
    rw [heq']
    refine hg.bind hn hsg hsn (z ++ r) ?_ y y' r h
    simp only [List.length_cons] at hlength
    omega
  · next a u hbackslash hquote hhole heq =>
    obtain ⟨z, rfl⟩ := exists_front (hsn _ _ h)
    obtain ⟨heq', hlength⟩ := hfound (a :: (z ++ r)) heq
    rw [heq', List.cons_append]
    split
    · next heq => simp at heq
    · next heq => exact absurd (List.cons.inj heq).1 hbackslash
    · next heq => exact absurd (List.cons.inj heq).1 hquote
    · next heq =>
      -- the brace of a hole would be in front of the fence, and so in the other text as well
      obtain ⟨ha, hrest⟩ := List.cons.inj heq
      obtain ⟨z', hz', _⟩ := front_cons hrest (by decide)
      exact absurd (congrArg (· ++ (fence ++ y)) hz') (hhole _ ha)
    · next heq =>
      obtain ⟨_, rfl⟩ := List.cons.inj heq
      exact hn (z ++ r) (by simp only [List.length_cons] at hlength; omega) y y' r h

theorem untilRound_front (ht : BlindBelow n template) (hg : BlindBelow n group)
    (hn : BlindBelow n next) (hst : LeavesSuffix template) (hsg : LeavesSuffix group)
    (hsn : LeavesSuffix next) {terminator : Text} (hterminator : '\x60' ∉ terminator) :
    BlindBelow (n + 1) (untilRound template group next terminator) := by
  intro c hc y y' r h
  have hstarts := blind_startsWith hterminator c y y'
  unfold untilRound at h ⊢
  split at h
  · next hhere =>
    rw [Option.some.injEq, List.append_cancel_right_eq] at h
    rw [if_pos (hstarts ▸ hhere), h]
  next hhere =>
  rw [if_neg (hstarts ▸ hhere)]
  split at h
  · next u hu =>
    obtain ⟨z, rfl⟩ := exists_front (hsn _ _ h)
    have hshorter := front_shorter (skipFormWith_advances hst hsg hu)
    rw [skipFormWith_front ht hg hst c hc y y' _ hu]
    exact hn (z ++ r) (by omega) y y' r h
  · next hnone =>
    rw [blind_skipFormWith.eq_none hnone]
    split at h
    · next u heq =>
      -- a brace that closes nothing
      obtain ⟨c', rfl, rfl⟩ := front_cons heq (by decide)
      exact hn c' (Nat.lt_of_succ_lt_succ hc) y y' r h
    · next hbrace =>
      split at h
      · simp at h
      · next hnil =>
        obtain ⟨z, hz⟩ := exists_front (hsn _ _ h)
        have hadvances : Advances (c ++ (fence ++ y)) (seek atStop (c ++ (fence ++ y))) :=
          seek_advances (front_ne_nil c y) (skipFormWith_eq_none hnone hbrace)
        rw [hz] at h hadvances
        have hfound := Option.some.inj (stopsBlind_seek blind_atStop c y y' _ (congrArg some hz))
        have hread := hn (z ++ r) (by have := front_shorter hadvances; omega) y y' r h
        dsimp only
        split
        · next u heq =>
          obtain ⟨c', rfl, _⟩ := front_cons heq (by decide)
          exact absurd rfl (hbrace _)
        · rw [hfound]
          split
          · next heq => simp [fence] at heq
          · exact hread

/-- **Template literals and code up to a brace** are read without looking behind a fence. -/
theorem skip_front (n : Nat) : BlindBelow n skipTemplate ∧ BlindBelow n (skipUntil ['}']) := by
  induction n with
  | zero =>
    exact ⟨fun c hc => absurd hc (Nat.not_lt_zero _), fun c hc => absurd hc (Nat.not_lt_zero _)⟩
  | succ n ih =>
    obtain ⟨htemplate, huntil⟩ := ih
    have hbraces : BlindBelow n skipBraces :=
      huntil.bind blindBelow_afterBrace (skipUntil_suffix _) fun _ _ h =>
        (afterBrace_advances h).suffix
    have hround := templateRound_front hbraces htemplate skipBraces_suffix skipTemplate_suffix
    have hsearch := untilRound_front htemplate hbraces huntil skipTemplate_suffix skipBraces_suffix
      (skipUntil_suffix ['}']) (show '\x60' ∉ ['}'] by decide)
    refine ⟨fun c hc y y' r h => ?_, fun c hc y y' r h => ?_⟩
    · rw [skipTemplate_eq] at h ⊢
      exact hround c hc y y' r h
    · rw [skipUntil_eq] at h ⊢
      exact hsearch c hc y y' r h

theorem stopsBlind_skipBraces : StopsBlind skipBraces :=
  stopsBlind_iff.2 fun n => (skip_front n).2.bind blindBelow_afterBrace (skipUntil_suffix _)
    fun _ _ h => (afterBrace_advances h).suffix

theorem stopsBlind_skipForm : StopsBlind skipForm :=
  stopsBlind_iff.2 fun n c hc => skipFormWith_front (skip_front n).1
    (stopsBlind_iff.1 stopsBlind_skipBraces n) skipTemplate_suffix c (Nat.lt_succ_of_lt hc)

/-! ## Elements and imports -/

section Elements

variable {around : Nat} {next : JsxPlace → Nat → Text → Option Text}

/-- What a round in a start tag goes on with, where the tag does not end. -/
def tagRound (next : JsxPlace → Nat → Text → Option Text) (around : Nat) (t : Text) : Option Text :=
  match skipForm t with
  | some t => next .startTag around t
  | none => next .startTag around (seek atTagStop t)

theorem jsxRound_startTag {t : Text} (hclose : ∀ u, t ≠ '/' :: '>' :: u) (hopen : ∀ u, t ≠ '>' :: u)
    (ht : t ≠ []) : jsxRound next .startTag around t = tagRound next around t := by
  rw [jsxRound]
  · rfl
  · exact ht
  · exact hclose
  · exact hopen

theorem jsxRound_content {t : Text} (hbrace : ∀ u, t ≠ '{' :: u) (hangle : ∀ u, t ≠ '<' :: u)
    (ht : t ≠ []) :
    jsxRound next .content around t = next .content around (seekAny ['{', '<'] t) := by
  cases t with
  | nil => exact absurd rfl ht
  | cons a t =>
    simp only [jsxRound]
    split
    · next heq => exact absurd heq (hbrace _)
    · next heq => exact absurd heq (hangle _)
    · next heq => exact absurd heq (hangle _)
    · rfl

theorem jsxRound_endTag {t : Text} (hclose : ∀ u, t ≠ '>' :: u) (ht : t ≠ []) :
    jsxRound next .endTag around t = next .endTag around (seekAny ['>'] t) := by
  cases t with
  | nil => exact absurd rfl ht
  | cons a t =>
    simp only [jsxRound]

theorem jsxRound_open {t : Text} (hslash : ∀ u, t ≠ '/' :: u) :
    jsxRound next .content around ('<' :: t) = next .startTag (around + 1) t := by
  simp only [jsxRound]

variable (hn : ∀ place around, BlindBelow n (next place around))
  (hsn : ∀ place around, LeavesSuffix (next place around))

include hn hsn

/-- Going on behind a run of characters that ends in front of the fence. -/
theorem onward_front {place : JsxPlace} {stop : Text → Bool} (hblind : Blind stop) {c y y' r : Text}
    (hc : c.length < n + 1) (hnot : stop (c ++ (fence ++ y)) = false)
    (h : next place around (seek stop (c ++ (fence ++ y))) = some (r ++ (fence ++ y))) :
    next place around (seek stop (c ++ (fence ++ y'))) = some (r ++ (fence ++ y')) := by
  obtain ⟨z, hz⟩ := exists_front (hsn _ _ _ _ h)
  have hadvances := seek_advances (front_ne_nil c y) hnot
  rw [hz] at h hadvances
  rw [Option.some.inj (stopsBlind_seek hblind c y y' _ (congrArg some hz))]
  exact hn place around (z ++ r) (by have := front_shorter hadvances; omega) y y' r h

theorem tagRound_front {c y y' r : Text} (hc : c.length < n + 1)
    (hstop : skipForm (c ++ (fence ++ y)) = none → atTagStop (c ++ (fence ++ y)) = false)
    (h : tagRound next around (c ++ (fence ++ y)) = some (r ++ (fence ++ y))) :
    tagRound next around (c ++ (fence ++ y')) = some (r ++ (fence ++ y')) := by
  unfold tagRound at h ⊢
  split at h
  · next u hu =>
    obtain ⟨z, rfl⟩ := exists_front (hsn _ _ _ _ h)
    have hshorter := front_shorter (skipForm_advances hu)
    rw [stopsBlind_skipForm c y y' _ hu]
    exact hn _ _ (z ++ r) (by omega) y y' r h
  · next hnone =>
    rw [show skipForm (c ++ (fence ++ y')) = none from blind_skipFormWith.eq_none hnone]
    exact onward_front hn hsn blind_atTagStop hc (hstop hnone) h

/-- Going on behind a run without any of the given characters. -/
theorem onwardAny_front {place : JsxPlace} {stops : List Char} {c y y' r : Text}
    (hc : c.length < n + 1) (hnot : ∀ a ∈ stops, ∀ u, c ++ (fence ++ y) ≠ a :: u)
    (h : next place around (seekAny stops (c ++ (fence ++ y))) = some (r ++ (fence ++ y))) :
    next place around (seekAny stops (c ++ (fence ++ y'))) = some (r ++ (fence ++ y')) := by
  rw [seekAny, dropWhile_eq_seek] at h ⊢
  refine onward_front hn hsn (blind_head fun head => head.any _) hc ?_ h
  cases htext : c ++ (fence ++ y) with
  | nil => rfl
  | cons a t => simpa using fun hin => hnot a hin t htext

theorem startTag_front (around : Nat) : BlindBelow (n + 1) (jsxRound next .startTag around) := by
  intro c hc y y' r h
  by_cases hclose : ∃ u, c ++ (fence ++ y) = '/' :: '>' :: u
  · obtain ⟨u, heq⟩ := hclose
    obtain ⟨c', rfl, rfl⟩ := front_cons_cons heq (by decide) (by decide)
    cases around with
    | zero =>
      obtain rfl := List.append_cancel_right (Option.some.inj h)
      rfl
    | succ outer => exact hn _ _ c' (by simp only [List.length_cons] at hc; omega) y y' r h
  by_cases hopen : ∃ u, c ++ (fence ++ y) = '>' :: u
  · obtain ⟨u, heq⟩ := hopen
    obtain ⟨c', rfl, rfl⟩ := front_cons heq (by decide)
    exact hn _ _ c' (Nat.lt_of_succ_lt_succ hc) y y' r h
  have hclose' : ∀ u, c ++ (fence ++ y') ≠ '/' :: '>' :: u := by
    intro u heq
    obtain ⟨c', rfl, _⟩ := front_cons_cons heq (by decide) (by decide)
    exact hclose ⟨_, rfl⟩
  have hopen' := front_ne (by decide) (fun u heq => hopen ⟨u, heq⟩) y'
  rw [jsxRound_startTag (fun u heq => hclose ⟨u, heq⟩) (fun u heq => hopen ⟨u, heq⟩)
    (front_ne_nil c y)] at h
  rw [jsxRound_startTag hclose' hopen' (front_ne_nil c y')]
  exact tagRound_front hn hsn hc (fun hnone => atTagStop_eq_false hnone
    (fun u heq => hclose ⟨u, heq⟩) fun u heq => hopen ⟨u, heq⟩) h

theorem content_front (around : Nat) : BlindBelow (n + 1) (jsxRound next .content around) := by
  intro c hc y y' r h
  by_cases hbrace : ∃ u, c ++ (fence ++ y) = '{' :: u
  · obtain ⟨u, heq⟩ := hbrace
    obtain ⟨c', rfl, rfl⟩ := front_cons heq (by decide)
    exact (stopsBlind_iff.1 stopsBlind_skipBraces n).bind (hn _ _) skipBraces_suffix (hsn _ _) c'
      (Nat.lt_of_succ_lt_succ hc) y y' r h
  by_cases hangle : ∃ u, c ++ (fence ++ y) = '<' :: u
  · obtain ⟨u, heq⟩ := hangle
    obtain ⟨c', rfl, rfl⟩ := front_cons heq (by decide)
    by_cases hslash : ∃ u, c' ++ (fence ++ y) = '/' :: u
    · obtain ⟨u, heq⟩ := hslash
      obtain ⟨c'', rfl, rfl⟩ := front_cons heq (by decide)
      exact hn _ _ c'' (by simp only [List.length_cons] at hc; omega) y y' r h
    rw [List.cons_append, jsxRound_open fun u heq => hslash ⟨u, heq⟩] at h
    rw [List.cons_append, jsxRound_open (front_ne (by decide) (fun u heq => hslash ⟨u, heq⟩) y')]
    exact hn _ _ c' (Nat.lt_of_succ_lt_succ hc) y y' r h
  have hbrace' (u : Text) : c ++ (fence ++ y) ≠ '{' :: u := fun heq => hbrace ⟨u, heq⟩
  have hangle' (u : Text) : c ++ (fence ++ y) ≠ '<' :: u := fun heq => hangle ⟨u, heq⟩
  rw [jsxRound_content hbrace' hangle' (front_ne_nil c y)] at h
  rw [jsxRound_content (front_ne (by decide) hbrace' y') (front_ne (by decide) hangle' y')
    (front_ne_nil c y')]
  refine onwardAny_front hn hsn hc (fun a ha => ?_) h
  rcases List.mem_cons.1 ha with rfl | ha
  · exact hbrace'
  · rw [List.mem_singleton.1 ha]
    exact hangle'

theorem endTag_front (around : Nat) : BlindBelow (n + 1) (jsxRound next .endTag around) := by
  intro c hc y y' r h
  by_cases hclose : ∃ u, c ++ (fence ++ y) = '>' :: u
  · obtain ⟨u, heq⟩ := hclose
    obtain ⟨c', rfl, rfl⟩ := front_cons heq (by decide)
    cases around with
    | zero =>
      obtain rfl := List.append_cancel_right (Option.some.inj h)
      rfl
    | succ outer => exact hn _ _ c' (Nat.lt_of_succ_lt_succ hc) y y' r h
  have hclose' (u : Text) : c ++ (fence ++ y) ≠ '>' :: u := fun heq => hclose ⟨u, heq⟩
  rw [jsxRound_endTag hclose' (front_ne_nil c y)] at h
  rw [jsxRound_endTag (front_ne (by decide) hclose' y') (front_ne_nil c y')]
  refine onwardAny_front hn hsn hc (fun a ha => ?_) h
  rw [List.mem_singleton.1 ha]
  exact hclose'

/-- **A round of the reader of elements**, wherever in the element it is. -/
theorem jsxRound_front (place : JsxPlace) (around : Nat) :
    BlindBelow (n + 1) (jsxRound next place around) := by
  cases place with
  | startTag => exact startTag_front hn hsn around
  | content => exact content_front hn hsn around
  | endTag => exact endTag_front hn hsn around

end Elements

/-- The reader of elements with all the fuel it can need. -/
def skipJsxFrom (place : JsxPlace) (around : Nat) (t : Text) : Option Text :=
  skipJsxIn (t.length + 1) place around t

theorem skipJsxFrom_eq (place : JsxPlace) (around : Nat) (t : Text) :
    skipJsxFrom place around t = jsxRound skipJsxFrom place around t :=
  eq_jsxRound_iff.2 (fun _ _ _ => rfl) place around t

/-- **Elements** are read without looking behind a fence. -/
theorem stopsBlind_skipJsxFrom (place : JsxPlace) (around : Nat) :
    StopsBlind (skipJsxFrom place around) := by
  refine stopsBlind_iff.2 fun n => ?_
  induction n generalizing place around with
  | zero => exact fun c hc => absurd hc (Nat.not_lt_zero _)
  | succ n ih =>
    intro c hc y y' r h
    rw [skipJsxFrom_eq] at h ⊢
    exact jsxRound_front ih (fun place around t => skipJsxIn_suffix _ place around t) place around
      c hc y y' r h

theorem stopsBlind_skipJsx : StopsBlind skipJsx := stopsBlind_skipJsxFrom .startTag 0

/-- The rest of an import behind the quote of its module. -/
def skipModule (quote : Char) (t : Text) : Bool × Text :=
  match skipString quote t with
  | (true, ';' :: t) => (true, t)
  | ending => ending

theorem skipModule_suffix (quote : Char) (t : Text) : (skipModule quote t).2 <:+ t :=
  moduleEnd_suffix quote (List.suffix_refl t)

theorem skipModule_front {quote : Char} (hquote : quote ≠ '\x60') (c y y' r : Text)
    (h : (skipModule quote (c ++ (fence ++ y))).2 = r ++ (fence ++ y)) :
    skipModule quote (c ++ (fence ++ y'))
      = ((skipModule quote (c ++ (fence ++ y))).1, r ++ (fence ++ y')) := by
  have hstring := skipString_front hquote c y y'
  unfold skipModule at h ⊢
  split at h
  · next t heq =>
    obtain rfl : t = r ++ (fence ++ y) := h
    rw [hstring (';' :: r) (congrArg Prod.snd heq), heq]
    rfl
  · next hsemicolon =>
    rw [hstring r h]
    split
    · next t heq =>
      -- a semicolon behind the string is in front of the fence
      obtain ⟨hclosed, hrest⟩ := Prod.mk.inj heq
      obtain ⟨r', rfl, _⟩ := front_cons hrest (by decide)
      exact absurd (Prod.ext hclosed h) (hsemicolon _)
    · rfl

/-- **Imports** are read without looking behind a fence. -/
theorem skipImport_front (c y y' r : Text)
    (h : (skipImport (c ++ (fence ++ y))).2 = r ++ (fence ++ y)) :
    skipImport (c ++ (fence ++ y'))
      = ((skipImport (c ++ (fence ++ y))).1, r ++ (fence ++ y')) := by
  have hfound (z : Text) (hz : seek atImportStop (c ++ (fence ++ y)) = z ++ (fence ++ y)) :
      seek atImportStop (c ++ (fence ++ y')) = z ++ (fence ++ y') :=
    Option.some.inj (stopsBlind_seek blind_atImportStop c y y' z (congrArg some hz))
  unfold skipImport at h ⊢
  dsimp only at h ⊢
  split at h
  · next t heq =>
    change (skipModule '\'' t).2 = _ at h
    obtain ⟨z, rfl⟩ := exists_front (h ▸ skipModule_suffix '\'' t)
    rw [hfound ('\'' :: (z ++ r)) heq]
    exact skipModule_front (by decide) (z ++ r) y y' r h
  · next t heq =>
    change (skipModule '"' t).2 = _ at h
    obtain ⟨z, rfl⟩ := exists_front (h ▸ skipModule_suffix '"' t)
    rw [hfound ('"' :: (z ++ r)) heq]
    exact skipModule_front (by decide) (z ++ r) y y' r h
  · next hsingle hdouble =>
    change seek atImportStop (c ++ (fence ++ y)) = _ at h
    rw [hfound r h]
    split
    · next t heq =>
      obtain ⟨r', rfl, _⟩ := front_cons heq (by decide)
      exact absurd h (hsingle _)
    · next t heq =>
      obtain ⟨r', rfl, _⟩ := front_cons heq (by decide)
      exact absurd h (hdouble _)
    · rfl

end HostCode

end HybridMarkup
