/-
Texts that end their lines with a carriage return and a line feed.

`Text.crlf` rewrites the line endings of a text. A question about where one stands has the same
answer in front of the rewritten text, if it takes a carriage return for the line feed that follows
(`Neutral`), and the simple readers then take the same and leave the rewritten rest.

Strings of the host language are the first that do not. A backslash takes the next character with
it, and that is only half of a line ending, so that the other half cuts the string short. Whether a
string goes over such an end of a line is asked by `spansLines`, and whether one may be in a part
of a text by `escapesBreak`; a string that does not is read the same (`skipString_crlf`).
-/
import HybridMarkup.Proofs.Foresight

set_option autoImplicit false

namespace HybridMarkup

namespace Text

/-! ## The other line endings -/

/-- The text with a carriage return in front of every line feed. -/
def crlf (t : Text) : Text := t.flatMap fun c => if c = '\n' then ['\r', '\n'] else [c]

variable {c : Char} {t u rest : Text}

@[simp] theorem crlf_nil : crlf [] = [] := rfl

@[simp] theorem crlf_break (t : Text) : crlf ('\n' :: t) = '\r' :: '\n' :: crlf t := rfl

theorem crlf_cons (hc : c ≠ '\n') (t : Text) : crlf (c :: t) = c :: crlf t := by
  simp [crlf, hc]

theorem crlf_append (s t : Text) : crlf (s ++ t) = crlf s ++ crlf t := List.flatMap_append

theorem crlf_ne_nil (h : t ≠ []) : crlf t ≠ [] := by
  cases t with
  | nil => exact absurd rfl h
  | cons c t => by_cases hc : c = '\n' <;> simp [crlf, hc]

/-- Only a line ending begins with a carriage return, so any other first character has been there
before. -/
theorem crlf_eq_cons (hc : c ≠ '\r') (h : crlf t = c :: u) : ∃ v, t = c :: v ∧ u = crlf v := by
  cases t with
  | nil => simp at h
  | cons d t =>
    by_cases hd : d = '\n'
    · subst hd
      exact absurd (List.cons.inj h).1.symm hc
    · rw [crlf_cons hd] at h
      obtain ⟨rfl, rfl⟩ := List.cons.inj h
      exact ⟨t, rfl, rfl⟩

/-- So a text that does not begin with such a character does not begin with it afterwards. -/
theorem crlf_ne_cons (hc : c ≠ '\r') (h : ∀ v, t ≠ c :: v) (u : Text) : crlf t ≠ c :: u := by
  intro heq
  obtain ⟨v, hv, _⟩ := crlf_eq_cons hc heq
  exact h v hv

theorem drop_one_crlf (h : ∀ u, t ≠ '\n' :: u) : (crlf t).drop 1 = crlf (t.drop 1) := by
  cases t with
  | nil => rfl
  | cons c t =>
    rw [crlf_cons fun hc => h t (by rw [hc])]
    rfl

/-- What has no line feed stays as it is. -/
theorem crlf_eq_self (h : '\n' ∉ t) : crlf t = t := by
  induction t with
  | nil => rfl
  | cons c t ih =>
    rw [List.mem_cons, not_or] at h
    rw [crlf_cons (Ne.symm h.1), ih h.2]

theorem getLast?_crlf (t : Text) : (crlf t).getLast? = t.getLast? := by
  induction t with
  | nil => rfl
  | cons c t ih =>
    by_cases hc : c = '\n'
    · subst hc
      simp [List.getLast?_cons, ih]
    · rw [crlf_cons hc, List.getLast?_cons, List.getLast?_cons, ih]

theorem size_le_crlf (t : Text) : size t ≤ size (crlf t) := by
  induction t with
  | nil => exact Nat.le_refl _
  | cons c t ih =>
    by_cases hc : c = '\n'
    · subst hc
      simp only [crlf_break, size]
      omega
    · rw [crlf_cons hc]
      simp only [size]
      omega

theorem all_crlf {p : Char → Bool} (hp : p '\r' = p '\n') (t : Text) :
    (crlf t).all p = t.all p := by
  induction t with
  | nil => rfl
  | cons c t ih =>
    by_cases hc : c = '\n'
    · subst hc
      simp [ih, hp]
    · rw [crlf_cons hc, List.all_cons, List.all_cons, ih]

theorem before_self (t : Text) : before t t = [] := before_append [] t

theorem head?_crlf_any {p : Char → Bool} (hp : p '\r' = p '\n') (t : Text) :
    (crlf t).head?.any p = t.head?.any p := by
  cases t with
  | nil => rfl
  | cons c t =>
    by_cases hc : c = '\n'
    · subst hc
      exact hp
    · rw [crlf_cons hc]
      rfl

theorem before_append_of_suffix (h : rest <:+ t) (s : Text) :
    before (s ++ t) rest = s ++ before t rest := by
  obtain ⟨part, rfl⟩ := h
  rw [before_append, ← List.append_assoc, before_append]

theorem before_cons (h : rest <:+ t) (c : Char) : before (c :: t) rest = c :: before t rest :=
  before_append_of_suffix h [c]

theorem before_crlf (h : rest <:+ t) : before (crlf t) (crlf rest) = crlf (before t rest) := by
  obtain ⟨part, rfl⟩ := h
  rw [crlf_append, before_append, before_append]

/-- The offset of a place once the line endings in front of it are rewritten. -/
def crlfOffset (text : Text) (offset : Nat) : Nat := size (crlf (takeBytes offset text))

theorem crlfOffset_append (read rest : Text) :
    crlfOffset (read ++ rest) (size read) = size (crlf read) := by
  rw [crlfOffset, takeBytes_append]

/-! ## Questions and runs of characters -/

/-- A question that has the same answer with the other line endings. -/
def Neutral {α : Type} (question : Text → α) : Prop :=
  ∀ t : Text, '\r' ∉ t → question (crlf t) = question t

/-- A reader that takes the same with the other line endings. -/
def ReadsAlike (reader : Text → Option Text) : Prop :=
  ∀ t : Text, '\r' ∉ t → reader (crlf t) = (reader t).map crlf

/-- A question about the first two characters that does not tell the characters of a line ending
apart. -/
theorem neutral_of_pair {α : Type} {question : Text → α}
    (pair : ∀ a b t u, question (a :: b :: t) = question (a :: b :: u))
    (first : ∀ t u, question ('\r' :: t) = question ('\n' :: u))
    (second : ∀ a t u, question (a :: '\r' :: t) = question (a :: '\n' :: u)) :
    Neutral question := by
  intro t _
  rcases t with _ | ⟨a, t⟩
  · rfl
  by_cases ha : a = '\n'
  · subst ha
    exact first _ _
  rw [crlf_cons ha]
  rcases t with _ | ⟨b, t⟩
  · rfl
  by_cases hb : b = '\n'
  · subst hb
    exact second a _ _
  · rw [crlf_cons hb]
    exact pair a b _ _

/-- What is not found in the one text is not found in the other. -/
theorem Neutral.eq_none {α : Type} {find : Text → Option α} (h : Neutral fun t => (find t).isSome)
    (ht : '\r' ∉ t) (hnone : find t = none) : find (crlf t) = none := by
  have hfind := h t ht
  dsimp only at hfind
  rw [hnone] at hfind
  exact Option.not_isSome_iff_eq_none.1 (by simp [hfind])

theorem ReadsAlike.isSome {reader : Text → Option Text} (h : ReadsAlike reader) :
    Neutral fun t => (reader t).isSome := by
  intro t ht
  simp only [h t ht, Option.isSome_map]

theorem strip?_crlf {beginning : Text} (hn : '\n' ∉ beginning) (hr : '\r' ∉ beginning) (t : Text) :
    strip? beginning (crlf t) = (strip? beginning t).map crlf := by
  induction beginning generalizing t with
  | nil => rfl
  | cons b beginning ih =>
    rw [List.mem_cons, not_or] at hn hr
    cases t with
    | nil => rfl
    | cons c t =>
      by_cases hc : c = '\n'
      · subst hc
        simp [strip?, Ne.symm hn.1, Ne.symm hr.1]
      · rw [crlf_cons hc]
        by_cases hb : b = c
        · simpa [strip?, hb] using ih hn.2 hr.2 t
        · simp [strip?, hb]

theorem startsWith_crlf {beginning : Text} (hn : '\n' ∉ beginning) (hr : '\r' ∉ beginning)
    (t : Text) : startsWith beginning (crlf t) = startsWith beginning t := by
  rw [startsWith, startsWith, strip?_crlf hn hr, Option.isSome_map]

theorem dropWhile_crlf {p : Char → Bool} (hp : p '\r' = p '\n') (t : Text) :
    (crlf t).dropWhile p = crlf (t.dropWhile p) := by
  induction t with
  | nil => rfl
  | cons c t ih =>
    by_cases hc : c = '\n'
    · subst hc
      by_cases hbreak : p '\n' = true <;> simp [hp, hbreak, ih]
    · rw [crlf_cons hc]
      by_cases hpc : p c = true
      · simp [hpc, ih]
      · simp [hpc, crlf_cons hc]

theorem seekAny_crlf {chars : List Char} (hp : chars.contains '\r' = chars.contains '\n')
    (t : Text) : seekAny chars (crlf t) = crlf (seekAny chars t) :=
  dropWhile_crlf (congrArg not hp) t

theorem passWhile?_crlf {p : Char → Bool} (hp : p '\r' = p '\n') (t : Text) :
    passWhile? p (crlf t) = (passWhile? p t).map crlf := by
  cases t with
  | nil => rfl
  | cons c t =>
    by_cases hc : c = '\n'
    · subst hc
      by_cases hbreak : p '\n' = true <;> simp [passWhile?, hp, hbreak, dropWhile_crlf hp]
    · rw [crlf_cons hc]
      by_cases hpc : p c = true <;> simp [passWhile?, hpc, dropWhile_crlf hp]

/-- A search that does not halt at a line feed does not halt within a line ending. -/
theorem seek_crlf {stop : Text → Bool} (h : Neutral stop)
    (hbreak : ∀ t : Text, '\r' ∉ t → stop ('\n' :: t) = false → stop ('\n' :: crlf t) = false)
    {t : Text} (ht : '\r' ∉ t) : seek stop (crlf t) = crlf (seek stop t) := by
  induction t with
  | nil => rfl
  | cons c t ih =>
    have htail : '\r' ∉ t := fun hmem => ht (List.mem_cons_of_mem c hmem)
    have hhere : stop (crlf (c :: t)) = stop (c :: t) := h _ ht
    by_cases hc : c = '\n'
    · subst hc
      rw [crlf_break] at hhere ⊢
      by_cases hstop : stop ('\n' :: t) = true
      · simp [seek, hhere, hstop]
      · rw [seek, hhere, if_neg hstop, seek, hbreak t htail (by simpa using hstop),
          if_neg (by decide), ih htail, seek, if_neg hstop]
    · rw [crlf_cons hc] at hhere ⊢
      by_cases hstop : stop (c :: t) = true
      · simp [seek, hhere, hstop, crlf_cons hc]
      · rw [seek, hhere, if_neg hstop, ih htail, seek, if_neg hstop]

theorem seekTo_crlf {beginning : Text} (hn : '\n' ∉ beginning) (hr : '\r' ∉ beginning)
    (hne : beginning ≠ []) {t : Text} (ht : '\r' ∉ t) :
    seekTo beginning (crlf t) = crlf (seekTo beginning t) := by
  refine seek_crlf (fun t _ => startsWith_crlf hn hr t) (fun t _ _ => ?_) ht
  cases beginning with
  | nil => exact absurd rfl hne
  | cons b beginning =>
    rw [List.mem_cons, not_or] at hn
    simp [startsWith, strip?, Ne.symm hn.1]

/-- Something has been read of the one text just when something has been read of the other. -/
theorem crlf_shorter_iff (h : rest <:+ t) :
    (crlf rest).length < (crlf t).length ↔ rest.length < t.length := by
  obtain ⟨part, rfl⟩ := h
  rw [crlf_append, List.length_append, List.length_append]
  cases part with
  | nil => simp
  | cons c part =>
    have := List.length_pos_iff.2 (crlf_ne_nil (List.cons_ne_nil c part))
    simp only [List.length_cons]
    omega

end Text

open Text

namespace HostCode

/-! ## Strings -/

/-- Whether a string with this quote, read from here on, goes over a line break behind a
backslash. -/
def spansLines (quote : Char) : Text → Bool
  | [] => false
  | ['\\'] => false
  | '\\' :: c :: t => c == '\n' || spansLines quote t
  | c :: t =>
    if c = quote then false else if c = '\n' || c = '\r' then false else spansLines quote t

/-- Whether somewhere in the text a quote stands from which on a string would go over a line break
behind a backslash. -/
def escapesBreak : Text → Bool
  | [] => false
  | c :: t => ((c == '\'' || c == '"') && spansLines c t) || escapesBreak t

theorem spansLines_cons {quote c : Char} {t : Text} (hc : c ≠ '\\') :
    spansLines quote (c :: t) = if c = quote then false
      else if c = '\n' || c = '\r' then false else spansLines quote t :=
  spansLines.eq_4 quote c t (fun h => absurd h hc) fun _ _ h => absurd h hc

/-- Strings are read a character at a time, or two behind a backslash. -/
@[elab_as_elim]
theorem string_induction {P : Text → Prop} (t : Text) (nil : P []) (lone : P ['\\'])
    (escape : ∀ c t, P t → P ('\\' :: c :: t)) (plain : ∀ c t, c ≠ '\\' → P t → P (c :: t)) :
    P t := by
  induction hn : t.length using Nat.strongRecOn generalizing t with
  | ind n ih =>
    subst hn
    rcases t with _ | ⟨c, t⟩
    · exact nil
    by_cases hc : c = '\\'
    · subst hc
      rcases t with _ | ⟨d, t⟩
      · exact lone
      · exact escape d t (ih t.length (by simp only [List.length_cons]; omega) t rfl)
    · exact plain c t hc (ih t.length (Nat.lt_succ_self _) t rfl)

theorem spansLines_append {quote : Char} {t : Text} (h : spansLines quote t = true) (u : Text) :
    spansLines quote (t ++ u) = true := by
  induction t using string_induction with
  | nil => simp [spansLines] at h
  | lone => simp [spansLines] at h
  | escape c t ih =>
    simp only [spansLines, Bool.or_eq_true, List.cons_append] at h ⊢
    exact h.imp id ih
  | plain c t hc ih =>
    rw [spansLines_cons hc] at h
    rw [List.cons_append, spansLines_cons hc]
    by_cases hquote : c = quote
    · simp [hquote] at h
    by_cases hbreak : (c = '\n' || c = '\r') = true
    · simp [hquote, hbreak] at h
    · rw [if_neg hquote, if_neg hbreak] at h ⊢
      exact ih h

/-- Whether a string goes over such a line break shows in what is read of it. -/
theorem spansLines_before {quote : Char} {t rest : Text} (h : rest <:+ (skipString quote t).2) :
    spansLines quote (before t rest) = spansLines quote t := by
  induction t using string_induction with
  | nil =>
    obtain rfl : rest = [] := List.suffix_nil.1 h
    rfl
  | lone =>
    obtain rfl : rest = [] := List.suffix_nil.1 h
    rfl
  | escape c t ih =>
    have hrest : rest <:+ t := h.trans (skipString_suffix quote t)
    rw [before_cons (hrest.trans (List.suffix_cons c t)), before_cons hrest]
    simp only [spansLines, ih h]
  | plain c t hc ih =>
    rw [skipString_cons hc] at h
    by_cases hquote : c = quote
    · rw [if_pos hquote] at h
      rw [before_cons h, spansLines_cons hc, spansLines_cons hc, if_pos hquote, if_pos hquote]
    rw [if_neg hquote] at h
    by_cases hbreak : (c = '\n' || c = '\r') = true
    · rw [if_pos hbreak] at h
      rw [spansLines_cons hc, if_neg hquote, if_pos hbreak]
      rcases List.suffix_cons_iff.1 h with rfl | h
      · rw [before_self]
        rfl
      · rw [before_cons h, spansLines_cons hc, if_neg hquote, if_pos hbreak]
    · rw [if_neg hbreak] at h
      rw [before_cons (h.trans (skipString_suffix quote t)), spansLines_cons hc, spansLines_cons hc,
        if_neg hquote, if_neg hquote, if_neg hbreak, if_neg hbreak, ih h]

/-- **Strings.** One that goes over no line break behind a backslash is read the same with the other
line endings. -/
theorem skipString_crlf {quote : Char} (hn : quote ≠ '\n') (hr : quote ≠ '\r') {t : Text}
    (h : spansLines quote t = false) :
    skipString quote (crlf t) = ((skipString quote t).1, crlf (skipString quote t).2) := by
  induction t using string_induction with
  | nil => rfl
  | lone => rfl
  | escape c t ih =>
    simp only [spansLines, Bool.or_eq_false_iff, beq_eq_false_iff_ne] at h
    rw [crlf_cons (by decide), crlf_cons h.1]
    simp only [skipString, ih h.2]
  | plain c t hc ih =>
    rw [spansLines_cons hc] at h
    by_cases hfeed : c = '\n'
    · subst hfeed
      have hstop : skipString quote ('\n' :: t) = (false, '\n' :: t) := by
        rw [skipString_cons (by decide), if_neg hn.symm, if_pos (by decide)]
      rw [hstop, crlf_break, skipString_cons (by decide), if_neg hr.symm, if_pos (by decide)]
    rw [crlf_cons hfeed, skipString_cons hc, skipString_cons hc]
    by_cases hquote : c = quote
    · rw [if_pos hquote, if_pos hquote]
    rw [if_neg hquote] at h
    rw [if_neg hquote, if_neg hquote]
    by_cases hbreak : (c = '\n' || c = '\r') = true
    · rw [if_pos hbreak, if_pos hbreak, crlf_cons hfeed]
    · rw [if_neg hbreak] at h
      rw [if_neg hbreak, if_neg hbreak, ih h]

/-! ## What is read -/

theorem escapesBreak_of_suffix {t u : Text} (hs : u <:+ t) (h : escapesBreak t = false) :
    escapesBreak u = false := by
  obtain ⟨part, rfl⟩ := hs
  induction part with
  | nil => exact h
  | cons c part ih =>
    rw [List.cons_append, escapesBreak, Bool.or_eq_false_iff] at h
    exact ih h.2

theorem escapesBreak_append {t : Text} (h : escapesBreak t = true) (u : Text) :
    escapesBreak (t ++ u) = true := by
  induction t with
  | nil => simp [escapesBreak] at h
  | cons c t ih =>
    simp only [escapesBreak, Bool.or_eq_true, Bool.and_eq_true, List.cons_append] at h ⊢
    exact h.imp (And.imp_right fun hspans => spansLines_append hspans u) ih

/-- No string goes over a line break behind a backslash in what a reader takes of the text. -/
def Calm (t rest : Text) : Prop := escapesBreak (before t rest) = false

/-- What is taken on the way is part of what is taken. -/
theorem Calm.between {t u v rest : Text} (h : Calm t rest) (hu : u <:+ t) (hv : v <:+ u)
    (hrest : rest <:+ v) : Calm u v := by
  obtain ⟨x, rfl⟩ := hrest
  obtain ⟨y, rfl⟩ := hv
  obtain ⟨z, rfl⟩ := hu
  unfold Calm at h ⊢
  rw [← List.append_assoc y, ← List.append_assoc z, before_append, ← List.append_assoc] at h
  rw [before_append]
  have hzy : escapesBreak (y ++ x) = false :=
    escapesBreak_of_suffix ⟨z, (List.append_assoc z y x).symm⟩ h
  cases hy : escapesBreak y with
  | false => rfl
  | true => exact absurd (escapesBreak_append hy x) (by simp [hzy])

theorem Calm.from_suffix {t u rest : Text} (h : Calm t rest) (hu : u <:+ t) (hrest : rest <:+ u) :
    Calm u rest := h.between hu hrest (List.suffix_refl rest)

theorem Calm.until {t u rest : Text} (h : Calm t rest) (hu : u <:+ t) (hrest : rest <:+ u) :
    Calm t u := h.between (List.suffix_refl t) hu hrest

/-- A string that begins where something is taken calmly. -/
theorem Calm.string {quote : Char} {t rest : Text} (h : Calm (quote :: t) rest)
    (hquote : quote = '\'' ∨ quote = '"') (hrest : rest <:+ (skipString quote t).2) :
    spansLines quote t = false := by
  unfold Calm at h
  rw [before_cons (hrest.trans (skipString_suffix quote t)), escapesBreak, Bool.or_eq_false_iff,
    Bool.and_eq_false_iff] at h
  rw [← spansLines_before hrest]
  rcases h.1 with hc | hspans
  · rcases hquote with rfl | rfl <;> simp at hc
  · exact hspans

end HostCode

end HybridMarkup
