/-
Two documents that are the same up to a fence are read alike up to it.

Whatever rule of prose applies in front of the fence, it applies in both documents, and if its token
ends in front of the fence as well, then it is the same token in both, and the scanner remembers the
same behind it (`step_front`). So the two scanners go side by side from token to token until one of
them takes a token that reaches into the fence, or stands in front of it (`Beside.scan`).
-/
import HybridMarkup.Proofs.Foresight

set_option autoImplicit false

namespace HybridMarkup

open Text

/-- If the first move ends in front of the fence, the second is the same. -/
def Move.SameFront (y y' : Text) (move move' : Move) : Prop :=
  ∀ kind error r m, move = .token kind error (r ++ (fence ++ y)) m →
    move' = .token kind error (r ++ (fence ++ y')) m

namespace Move

variable {y y' : Text} {move move' : Move}

theorem sameFront_token {rest rest' : Text} (kind : TokenKind) (error : Option LexError)
    (m : Memory) (h : ∀ r, rest = r ++ (fence ++ y) → rest' = r ++ (fence ++ y')) :
    (token kind error rest m).SameFront y y' (token kind error rest' m) := by
  intro kind' error' r m' heq
  obtain ⟨rfl, rfl, hrest, rfl⟩ := Move.token.inj heq
  rw [h r hrest]

/-- A token that takes all of the document does not end in front of the fence. -/
theorem sameFront_all (kind : TokenKind) (error : Option LexError) (m : Memory) :
    (token kind error [] m).SameFront y y' move' := by
  intro kind' error' r m' heq
  obtain ⟨_, _, hrest, _⟩ := Move.token.inj heq
  simp [fence] at hrest

/-- A rule applies where something is found, and leaves what is behind it. -/
theorem sameFront_match {find : Text → Option Text} (hfind : StopsBlind find)
    (hblind : Blind fun t => (find t).isSome) (kind : TokenKind) (m : Memory) (c : Text)
    (h : move.SameFront y y' move') :
    Move.SameFront y y'
      (match find (c ++ (fence ++ y)) with
        | some rest => .plain kind rest m
        | none => move)
      (match find (c ++ (fence ++ y')) with
        | some rest => .plain kind rest m
        | none => move') := by
  cases hfound : find (c ++ (fence ++ y)) with
  | none =>
    rw [hblind.eq_none hfound]
    exact h
  | some rest =>
    intro kind' error' r m' heq
    obtain ⟨rfl, rfl, rfl, rfl⟩ := Move.token.inj heq
    rw [hfind c y y' r hfound]
    rfl

end Move

/-! ## Rules -/

theorem blind_passWhile (p : Char → Bool) : Blind fun t => (passWhile? p t).isSome := by
  have hhead (t : Text) : (passWhile? p t).isSome = t.head?.any p := by
    cases t with
    | nil => rfl
    | cons a t => by_cases ha : p a <;> simp [passWhile?, ha]
  simp only [hhead]
  exact blind_head fun head => head.any p

theorem blind_passLineBreak : Blind fun t => (passLineBreak? t).isSome := by
  have hhead (t : Text) : (passLineBreak? t).isSome = t.head?.any isLineBreak := by
    unfold passLineBreak?
    split
    · rfl
    · next a t _ => by_cases ha : isLineBreak a <;> simp [ha]
    · rfl
  simp only [hhead]
  exact blind_head fun head => head.any isLineBreak

theorem stopsBlind_passLineBreak? : StopsBlind passLineBreak? := by
  intro c y y' r h
  unfold passLineBreak? at h
  split at h
  · next t heq =>
    obtain ⟨c', rfl, rfl⟩ := front_cons_cons heq (by decide) (by decide)
    obtain rfl := List.append_cancel_right (Option.some.inj h)
    rfl
  · next a t hboth heq =>
    split at h
    · next ha =>
      obtain ⟨c', rfl, rfl⟩ := front_cons heq (by rintro rfl; simp [isLineBreak] at ha)
      obtain rfl := List.append_cancel_right (Option.some.inj h)
      rw [List.cons_append, passLineBreak?, if_pos ha]
      -- a line feed behind would be in front of the fence
      intro u hr hu
      obtain ⟨c'', rfl, _⟩ := front_cons hu (by decide)
      exact hboth _ hr rfl
    · simp at h
  · simp at h

theorem stopsBlind_afterFenceLine? : StopsBlind afterFenceLine? := by
  intro c y y' r h
  unfold afterFenceLine? at h
  split at h
  · next t heq =>
    obtain ⟨c', rfl, rfl⟩ := front_cons_cons heq (by decide) (by decide)
    exact stopsBlind_strip? fence c' y y' r h
  · next t heq =>
    obtain ⟨c', rfl, rfl⟩ := front_cons heq (by decide)
    exact stopsBlind_strip? fence c' y y' r h
  · simp at h

/-- Of two things to be found the second counts where the first is missing. -/
theorem StopsBlind.or {find find' : Text → Option Text} (h : StopsBlind find)
    (hblind : Blind fun t => (find t).isSome) (h' : StopsBlind find') :
    StopsBlind fun t => (find t).or (find' t) := by
  intro c y y' r hread
  dsimp only at hread ⊢
  cases hfound : find (c ++ (fence ++ y)) with
  | some rest =>
    rw [hfound] at hread
    obtain rfl := Option.some.inj hread
    rw [h c y y' r hfound]
    rfl
  | none =>
    rw [hfound] at hread
    rw [hblind.eq_none hfound]
    exact h' c y y' r hread

theorem Blind.isSome_or {find find' : Text → Option Text} (h : Blind fun t => (find t).isSome)
    (h' : Blind fun t => (find' t).isSome) : Blind fun t => ((find t).or (find' t)).isSome := by
  intro c y y'
  have hfirst := h c y y'
  have hsecond := h' c y y'
  dsimp only at hfirst hsecond ⊢
  rw [Option.isSome_or, Option.isSome_or, hfirst, hsecond]

namespace Memory

variable {y y' : Text}

theorem scanText_front (m : Memory) (dialect : Dialect) (c : Text) :
    (m.scanText dialect (c ++ (fence ++ y))).SameFront y y'
      (m.scanText dialect (c ++ (fence ++ y'))) := by
  have hblind := blind_atTextEnd dialect c y y'
  unfold scanText
  rw [← hblind]
  split
  · refine Move.sameFront_token _ _ _ fun r h => ?_
    cases c with
    | nil => exact absurd h (not_front (List.suffix_refl ('\x60' :: '\x60' :: y)) (by simp [fence]))
    | cons a c =>
      obtain rfl := List.append_cancel_right h
      rfl
  · refine Move.sameFront_token _ _ _ fun r h => ?_
    exact Option.some.inj (stopsBlind_seek (blind_atTextEnd dialect) c y y' r (congrArg some h))

theorem blind_scanHostCode (m : Memory) : Blind fun t => (m.scanHostCode? t).isSome := by
  intro c y y'
  dsimp only
  rcases c with _ | ⟨a, _ | ⟨b, c⟩⟩
  · rfl
  · by_cases hbrace : a = '{'
    · subst hbrace
      simp only [List.cons_append, scanHostCode?]
      split <;> split <;> rfl
    · by_cases hangle : a = '<'
      · subst hangle
        rfl
      · simp [scanHostCode?, hbrace, hangle]
  · by_cases hbrace : a = '{'
    · subst hbrace
      simp only [List.cons_append, scanHostCode?]
      split <;> split <;> rfl
    · by_cases hangle : a = '<'
      · subst hangle
        simp only [List.cons_append, scanHostCode?]
        split
        · split <;> split <;> rfl
        · rfl
      · simp [scanHostCode?, hbrace, hangle]

theorem scanHostCode?_front (m : Memory) (c : Text) {move move' : Move}
    (h : move.SameFront y y' move') :
    ((m.scanHostCode? (c ++ (fence ++ y))).getD move).SameFront y y'
      ((m.scanHostCode? (c ++ (fence ++ y'))).getD move') := by
  cases hcode : m.scanHostCode? (c ++ (fence ++ y)) with
  | none =>
    rw [(blind_scanHostCode m).eq_none hcode]
    exact h
  | some found =>
    unfold scanHostCode? at hcode
    split at hcode
    · next t heq =>
      obtain ⟨c', rfl, rfl⟩ := front_cons heq (by decide)
      split at hcode
      · next rest hrest =>
        obtain rfl := Option.some.inj hcode
        intro kind error r m' heq
        obtain ⟨rfl, rfl, rfl, rfl⟩ := Move.token.inj heq
        rw [List.cons_append, scanHostCode?, HostCode.stopsBlind_skipBraces c' y y' r hrest]
        rfl
      · obtain rfl := Option.some.inj hcode
        exact Move.sameFront_all _ _ _
    · next a t heq =>
      split at hcode
      · next hopens =>
        obtain ⟨c', rfl, hc'⟩ := front_cons heq (by decide)
        obtain ⟨c'', rfl, rfl⟩ := front_cons hc'.symm (by rintro rfl; simp [opensElement] at hopens)
        split at hcode
        · next rest hrest =>
          obtain rfl := Option.some.inj hcode
          intro kind error r m' heq
          obtain ⟨rfl, rfl, rfl, rfl⟩ := Move.token.inj heq
          have hread := HostCode.stopsBlind_skipJsx (a :: c'') y y' r hrest
          rw [List.cons_append] at hread
          rw [List.cons_append, List.cons_append, scanHostCode?, if_pos hopens, hread]
          rfl
        · obtain rfl := Option.some.inj hcode
          exact Move.sameFront_all _ _ _
      · simp at hcode
    · simp at hcode

/-- A keyword that is found begins in front of the fence, and ends there. -/
theorem exists_of_atImport {c y : Text} (h : HostCode.atImport (c ++ (fence ++ y)) = true) :
    ∃ c', c = HostCode.importKeyword ++ c' := by
  unfold HostCode.atImport at h
  rw [strip?_front (by decide)] at h
  cases hstrip : strip? HostCode.importKeyword c with
  | none =>
    rw [hstrip] at h
    simp at h
  | some c' => exact ⟨c', strip?_eq_some.1 hstrip⟩

theorem scanImport?_front (m : Memory) (c : Text) {move move' : Move}
    (h : move.SameFront y y' move') :
    ((m.scanImport? (c ++ (fence ++ y))).getD move).SameFront y y'
      ((m.scanImport? (c ++ (fence ++ y'))).getD move') := by
  have himport := HostCode.blind_atImport c y y'
  unfold scanImport?
  rw [← himport]
  split
  · next hhere =>
    obtain ⟨c', rfl⟩ := exists_of_atImport hhere
    rw [List.append_assoc, List.append_assoc, List.drop_left, List.drop_left]
    have hread := HostCode.skipImport_front c' y y'
    intro kind error r m' heq
    cases hfound : HostCode.skipImport (c' ++ (fence ++ y)) with
    | mk found rest =>
      rw [hfound] at hread heq
      cases found with
      | true =>
        obtain ⟨rfl, rfl, rfl, rfl⟩ := Move.token.inj heq
        rw [hread r rfl]
        rfl
      | false =>
        obtain ⟨rfl, rfl, rfl, rfl⟩ := Move.token.inj heq
        rw [hread r rfl]
        rfl
  · exact h

theorem scanLineStart_front (m : Memory) (dialect : Dialect) (c : Text) :
    (m.scanLineStart dialect (c ++ (fence ++ y))).SameFront y y'
      (m.scanLineStart dialect (c ++ (fence ++ y'))) := by
  have htext : (m.scanText dialect (c ++ (fence ++ y))).SameFront y y'
      (m.scanText dialect (c ++ (fence ++ y'))) := scanText_front m dialect c
  unfold scanLineStart
  refine Move.sameFront_match (stopsBlind_strip? fence) blind_startsWith_fence _ _ c ?_
  split
  · rw [Option.getD_or, Option.getD_or]
    exact scanImport?_front m c (scanHostCode?_front m c htext)
  · exact htext

theorem scanInline_front (m : Memory) (dialect : Dialect) (c : Text) :
    (m.scanInline dialect (c ++ (fence ++ y))).SameFront y y'
      (m.scanInline dialect (c ++ (fence ++ y'))) := by
  have htext : (m.scanText dialect (c ++ (fence ++ y))).SameFront y y'
      (m.scanText dialect (c ++ (fence ++ y'))) := scanText_front m dialect c
  unfold scanInline
  refine Move.sameFront_match stopsBlind_passLineBreak? blind_passLineBreak _ _ c ?_
  refine Move.sameFront_match (stopsBlind_strip? commentOpening) blind_commentOpening _ _ c ?_
  split
  · exact scanHostCode?_front m c htext
  · exact htext

theorem scanComment_front (m : Memory) (c : Text) :
    (m.scanComment (c ++ (fence ++ y))).SameFront y y' (m.scanComment (c ++ (fence ++ y'))) := by
  unfold scanComment
  refine Move.sameFront_match (stopsBlind_strip? commentClosing) (blind_startsWith (by decide)) _ _
    c ?_
  refine Move.sameFront_token _ _ _ fun r h => ?_
  exact Option.some.inj (stopsBlind_seek (blind_startsWith (by decide)) c y y' r (congrArg some h))

theorem scanFenceInfo_front (m : Memory) (c : Text) :
    (m.scanFenceInfo (c ++ (fence ++ y))).SameFront y y'
      (m.scanFenceInfo (c ++ (fence ++ y'))) := by
  unfold scanFenceInfo
  refine Move.sameFront_match stopsBlind_passLineBreak? blind_passLineBreak _ _ c ?_
  refine Move.sameFront_match (stopsBlind_passWhile? _) (blind_passWhile _) _ _ c ?_
  refine Move.sameFront_token _ _ _ fun r h => ?_
  exact Option.some.inj (stopsBlind_dropWhile _ c y y' r (congrArg some h))

theorem scanFenceBody_front (m : Memory) (before : Option Char) (c : Text) :
    (m.scanFenceBody before (c ++ (fence ++ y))).SameFront y y'
      (m.scanFenceBody before (c ++ (fence ++ y'))) := by
  have hcontent : (Move.plain .codeBlockContent
        (seek (fun t => (afterFenceLine? t).isSome) (c ++ (fence ++ y))) m).SameFront y y'
      (.plain .codeBlockContent
        (seek (fun t => (afterFenceLine? t).isSome) (c ++ (fence ++ y'))) m) := by
    refine Move.sameFront_token _ _ _ fun r h => ?_
    exact Option.some.inj (stopsBlind_seek blind_afterFenceLine c y y' r (congrArg some h))
  unfold scanFenceBody
  by_cases hline : lineBeginsAfter before = true
  · simp only [hline, if_true]
    exact Move.sameFront_match
      ((stopsBlind_strip? fence).or blind_startsWith_fence stopsBlind_afterFenceLine?)
      (blind_startsWith_fence.isSome_or blind_afterFenceLine) _ _ c hcontent
  · simp only [hline]
    exact Move.sameFront_match stopsBlind_afterFenceLine? blind_afterFenceLine _ _ c hcontent

/-- The contexts that prose can be in. -/
def InProse (m : Memory) : Prop :=
  m.state = .content ∨ m.state = .inlineContent ∨ m.state = .comment ∨ m.state = .fenceInfo ∨
    m.state = .fenceBody

/-- **A step of prose**, whatever the context. -/
theorem step_front {m : Memory} {dialect : Dialect} (prose : dialect ≠ .template)
    (hprose : m.InProse) (before : Option Char) (c : Text) :
    (m.step dialect before (c ++ (fence ++ y))).SameFront y y'
      (m.step dialect before (c ++ (fence ++ y'))) := by
  have hstep (y : Text) : m.step dialect before (c ++ (fence ++ y))
      = m.stepWithin dialect before (c ++ (fence ++ y)) := by
    cases c <;> rfl
  rw [hstep, hstep]
  unfold stepWithin
  rcases hprose with hstate | hstate | hstate | hstate | hstate <;> rw [hstate] <;> dsimp only
  · refine Move.sameFront_match (stopsBlind_passWhile? _) (blind_passWhile _) _ _ c ?_
    refine Move.sameFront_match (stopsBlind_strip? commentOpening) blind_commentOpening _ _ c ?_
    cases dialect with
    | template => exact absurd rfl prose
    | markdown => exact scanLineStart_front m .markdown c
    | mdx => exact scanLineStart_front m .mdx c
  · exact scanInline_front m dialect c
  · exact scanComment_front m c
  · exact scanFenceInfo_front m c
  · exact scanFenceBody_front m before c

end Memory

/-! ## Scanners side by side -/

namespace Memory

/-- In prose every step yields a token. -/
theorem InProse.rank_eq_zero {m : Memory} (h : m.InProse) : m.state.rank = 0 := by
  rcases h with h | h | h | h | h <;> rw [h] <;> rfl

theorem InProse.exists_step {m : Memory} (h : m.InProse) (dialect : Dialect)
    (before : Option Char) {t : Text} (ht : t ≠ []) :
    ∃ kind error rest m', m.Yields dialect before t kind error rest m' ∧
      m.step dialect before t = .token kind error rest m' := by
  have hobeys : (m.step dialect before t).Obeys dialect before m t := step_obeys ht
  cases hstep : m.step dialect before t with
  | token kind error rest m' =>
    rw [hstep] at hobeys
    exact ⟨kind, error, rest, m', hobeys, rfl⟩
  | turn m' =>
    rw [hstep] at hobeys
    have hlt := Turns.rank_lt hobeys
    rw [h.rank_eq_zero] at hlt
    exact absurd hlt (Nat.not_lt_zero _)

end Memory

namespace Scanner

variable {s s' : Scanner} {y y' : Text} {kind : TokenKind} {error : Option LexError} {rest : Text}
  {m : Memory}

theorem scan_eq_take (h : s.memory.step s.dialect s.before s.rest = .token kind error rest m) :
    s.scan = s.take kind error rest m := by
  rw [scan, Memory.settle, h]

/-- What is taken is what is in front of the rest. -/
theorem take_of_append {part : Text} (h : s.rest = part ++ rest) :
    s.take kind error rest m =
      ({ kind, span := Span.ofLength s.offset (size part), lexeme := part, error },
        { s with
          offset := s.offset + size part
          before := part.getLast?.or s.before
          rest
          memory := { m with lastKind := some kind } }) := by
  rw [take, h, Text.before_append]
  rfl

/-- Two scanners at the same place, and in front of the same text for some way. -/
structure Beside (w w' : Text) (s s' : Scanner) : Prop where
  dialect_eq : s'.dialect = s.dialect
  offset_eq : s'.offset = s.offset
  before_eq : s'.before = s.before
  memory_eq : s'.memory = s.memory
  rest_eq : ∃ c, s.rest = c ++ w ∧ s'.rest = c ++ w'

variable {w w' r : Text}

/-- The way in front of them may be longer than is known. -/
theorem Beside.further {v : Text} (h : Beside (v ++ w) (v ++ w') s s') : Beside w w' s s' := by
  obtain ⟨c, hc, hc'⟩ := h.rest_eq
  exact ⟨h.dialect_eq, h.offset_eq, h.before_eq, h.memory_eq, c ++ v,
    by rw [hc, List.append_assoc], by rw [hc', List.append_assoc]⟩

/-- Scanners that take the same step of the way read the same token. -/
theorem Beside.scan_of_step (h : Beside w w' s s') (hsuffix : r ++ w <:+ s.rest)
    (hstep : s.memory.step s.dialect s.before s.rest = .token kind error (r ++ w) m)
    (hstep' : s'.memory.step s'.dialect s'.before s'.rest = .token kind error (r ++ w') m) :
    s'.scan.1 = s.scan.1 ∧ Beside w w' s.scan.2 s'.scan.2 := by
  obtain ⟨c, hc, hc'⟩ := h.rest_eq
  obtain ⟨part, hpart⟩ := exists_front (hc ▸ hsuffix)
  obtain rfl := List.append_cancel_right hpart
  rw [List.append_assoc] at hc hc'
  rw [scan_eq_take hstep, scan_eq_take hstep', take_of_append hc, take_of_append hc']
  refine ⟨by rw [h.offset_eq], ⟨h.dialect_eq, ?_, ?_, rfl, r, rfl, rfl⟩⟩
  · show s'.offset + size part = s.offset + size part
    rw [h.offset_eq]
  · show part.getLast?.or s'.before = part.getLast?.or s.before
    rw [h.before_eq]

/-- **Up to a fence the scanners read the same.** -/
theorem Beside.scan (h : Beside (fence ++ y) (fence ++ y') s s') (prose : s.dialect ≠ .template)
    (hprose : s.memory.InProse) (hfront : s.scan.2.rest = r ++ (fence ++ y)) :
    s'.scan.1 = s.scan.1 ∧ Beside (fence ++ y) (fence ++ y') s.scan.2 s'.scan.2 := by
  obtain ⟨c, hc, hc'⟩ := h.rest_eq
  have hne : s.rest ≠ [] := by rw [hc]; simp [fence]
  obtain ⟨kind, error, rest, m, hyields, hstep⟩ := hprose.exists_step s.dialect s.before hne
  have hscan := scan_eq_take hstep
  obtain rfl : rest = r ++ (fence ++ y) := by rw [← hfront, hscan]; rfl
  refine h.scan_of_step (hyields.suffix hne) hstep ?_
  rw [h.dialect_eq, h.before_eq, h.memory_eq, hc']
  rw [hc] at hstep
  exact Memory.step_front prose hprose s.before c kind error r m hstep

end Scanner

end HybridMarkup
