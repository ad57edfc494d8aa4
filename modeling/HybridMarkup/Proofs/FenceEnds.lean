/-
Where a fenced block ends.

The rule is one about the text alone: a block ends at the first fence that begins a line of its
body, and at the end of the text if no fence does. `FirstFence` says what the first fence is, for
any view of the characters that a line begins after, and `behindLine?` is the body, which begins
behind the opening line. The scanner reads the words of that line, then at most one token for what
is in the block, then the closing fence together with the line break in front of it.

Main statement: the scanner keeps to the rule for every block whose first fence is at the start of
the body or behind a line feed, however that line ended, and what it finds in such a block has no
fence at the start of a line (`Scanner.block_ends`). The start of the body is looked at with all
three line breaks in mind, though, and the rest of it with a line feed only. So a fence right behind
a carriage return or a form feed is overlooked (`Scanner.fence_overlooked`).
-/
import HybridMarkup.Proofs.BlockReading

set_option autoImplicit false

namespace HybridMarkup

open Text

/-! ## The first fence of a body -/

/-- The text is cut at the first fence that begins a line. Which characters a line begins after is
up to `begins`. -/
structure FirstFence (begins : Char → Bool) (body front back : Text) : Prop where
  parts : body = front ++ (fence ++ back)
  line : front.getLast?.all begins = true
  first : ∀ front' back' : Text, body = front' ++ (fence ++ back') →
    front'.getLast?.all begins = true → front.length ≤ front'.length

/-- Whether a character is a line feed. -/
def isLineFeed (c : Char) : Bool := c == '\n'

/-- If a fence of the body begins a line, the first such fence is at the start of the body or behind
a line feed. -/
def FenceOnFeed (body : Text) : Prop :=
  ∀ front back, FirstFence isLineBreak body front back → front.getLast?.all isLineFeed = true

/-- What is behind the line that the text begins with, if that line ends. -/
def behindLine? (t : Text) : Option Text := passLineBreak? (t.dropWhile fun c => !isLineBreak c)

section FirstFence

variable {begins begins' : Char → Bool} {body front back part rest : Text} {c : Char}

theorem isLineBreak_of_isLineFeed (h : isLineFeed c = true) : isLineBreak c = true := by
  rw [isLineFeed, beq_iff_eq] at h
  subst h
  rfl

/-- Where a fence begins a line, one is the first to do so. -/
theorem exists_firstFence (hparts : body = front ++ (fence ++ back))
    (hline : front.getLast?.all begins = true) :
    ∃ front' back', FirstFence begins body front' back' ∧ front'.length ≤ front.length := by
  induction hn : front.length using Nat.strongRecOn generalizing front back with
  | ind n ih =>
    subst hn
    by_cases hfirst : ∀ front' back' : Text, body = front' ++ (fence ++ back') →
        front'.getLast?.all begins = true → front.length ≤ front'.length
    · exact ⟨front, back, ⟨hparts, hline, hfirst⟩, Nat.le_refl _⟩
    · push Not at hfirst
      obtain ⟨front', back', hparts', hline', hlt⟩ := hfirst
      obtain ⟨front'', back'', h, hle⟩ := ih _ hlt hparts' hline' rfl
      exact ⟨front'', back'', h, Nat.le_of_lt (Nat.lt_of_le_of_lt hle hlt)⟩

/-- The first fence stays the first if less counts as the end of a line. -/
theorem FirstFence.mono (h : FirstFence begins body front back)
    (hless : ∀ c, begins' c = true → begins c = true)
    (hline : front.getLast?.all begins' = true) : FirstFence begins' body front back := by
  refine ⟨h.parts, hline, fun front' back' hparts hall => h.first front' back' hparts ?_⟩
  cases hlast : front'.getLast? with
  | none => rfl
  | some c =>
    rw [hlast] at hall
    exact hless c hall

/-- In front of the first fence no fence begins a line. -/
theorem FirstFence.no_fence_before (h : FirstFence begins body front back)
    (hc : begins c = true) : ¬ c :: fence <:+: front := by
  rintro ⟨u, v, hfront⟩
  have hle : front.length ≤ (u ++ [c]).length := by
    refine h.first (u ++ [c]) (v ++ (fence ++ back)) ?_ ?_
    · rw [h.parts, ← hfront]
      simp
    · rw [List.getLast?_concat]
      exact hc
  rw [← hfront] at hle
  simp [fence] at hle

theorem FirstFence.line_mono (h : FirstFence begins body front back)
    (hmore : ∀ c, begins c = true → begins' c = true) : front.getLast?.all begins' = true := by
  have hline := h.line
  cases hlast : front.getLast? with
  | none => rfl
  | some c =>
    rw [hlast] at hline
    exact hmore c hline

/-- There is one first fence. -/
theorem FirstFence.front_eq {front' back' : Text} (h : FirstFence begins body front back)
    (h' : FirstFence begins body front' back') : front = front' := by
  have hlength : front.length = front'.length :=
    Nat.le_antisymm (h.first front' back' h'.parts h'.line) (h'.first front back h.parts h.line)
  exact (List.append_inj (h.parts.symm.trans h'.parts) hlength).1

/-- A fence is the first one if its sign is not in front of it. -/
theorem firstFence_of_not_mem (hparts : body = front ++ (fence ++ back)) (hsign : '\x60' ∉ front)
    (hline : front.getLast?.all begins = true) : FirstFence begins body front back := by
  refine ⟨hparts, hline, fun front' back' hparts' _ => ?_⟩
  by_contra hlt
  rcases List.append_eq_append_iff.1 (hparts.symm.trans hparts') with ⟨u, hfront', _⟩ | ⟨u, hfront, hu⟩
  · rw [hfront', List.length_append] at hlt
    omega
  · rcases u with _ | ⟨c, u⟩
    · rw [hfront, List.append_nil] at hlt
      exact hlt (Nat.le_refl _)
    · obtain ⟨rfl, _⟩ := List.cons.inj hu
      exact hsign (hfront ▸ List.mem_append_right _ (List.mem_cons_self ..))

/-- A text none of whose lines begins with a fence has no fence behind the end of a line. -/
theorem no_fence_of_no_firstFence (h : ∀ front back, ¬ FirstFence begins body front back)
    (hc : begins c = true) : ¬ c :: fence <:+: body := by
  rintro ⟨u, v, hbody⟩
  have hparts : body = (u ++ [c]) ++ (fence ++ v) := by
    rw [← hbody]
    simp
  have hline : (u ++ [c]).getLast?.all begins = true := by
    rw [List.getLast?_concat]
    exact hc
  obtain ⟨front, back, hfirst, _⟩ := exists_firstFence hparts hline
  exact h front back hfirst

/-- **In front of the first fence behind a line feed is a body and the end of its line.** -/
theorem FirstFence.exists_body (h : FirstFence isLineFeed body front back) (hfront : front ≠ []) :
    ∃ b, front = b ++ ['\n'] ∧ IsBody b := by
  obtain ⟨b, c, rfl⟩ : ∃ b c, front = b ++ [c] :=
    ⟨_, _, (List.dropLast_concat_getLast hfront).symm⟩
  have hc : c = '\n' := by
    have hline := h.line
    rw [List.getLast?_concat] at hline
    simpa [isLineFeed] using hline
  subst hc
  refine ⟨b, rfl, ?_, fun hinner => h.no_fence_before (c := '\n') rfl ?_⟩
  -- a fence at the start would be the first
  · rintro ⟨u, rfl⟩
    have hle := h.first [] (u ++ ['\n'] ++ (fence ++ back)) (by rw [h.parts]; simp) rfl
    simp at hle
  · exact hinner.trans ⟨[], ['\n'], rfl⟩

end FirstFence

/-! ## The closing line -/

theorem afterFenceLine?_eq_some {t rest : Text} (h : afterFenceLine? t = some rest) :
    ∃ lineEnd, IsLineEnd lineEnd ∧ t = lineEnd ++ (fence ++ rest) := by
  unfold afterFenceLine? at h
  split at h
  · exact ⟨['\r', '\n'], .inr rfl, by rw [strip?_eq_some.1 h]; rfl⟩
  · exact ⟨['\n'], .inl rfl, by rw [strip?_eq_some.1 h]; rfl⟩
  · simp at h

/-- A closing line has a line feed and a fence behind it. -/
theorem fence_of_afterFenceLine? {t : Text} (h : (afterFenceLine? t).isSome = true) :
    '\n' :: fence <:+: t := by
  obtain ⟨rest, hrest⟩ := Option.isSome_iff_exists.1 h
  obtain ⟨lineEnd, rfl | rfl, rfl⟩ := afterFenceLine?_eq_some hrest
  · exact ⟨[], rest, rfl⟩
  · exact ⟨['\r'], rest, rfl⟩

/-- Where no fence is behind a line feed, no closing line is found. -/
theorem seek_closing_eq_nil {t : Text} (h : ¬ '\n' :: fence <:+: t) :
    seek (fun t => (afterFenceLine? t).isSome) t = [] := by
  by_contra hne
  exact h ((fence_of_afterFenceLine? (seek_stops hne)).trans (seek_suffix _ t).isInfix)

/-- In front of the place that was sought no other would have done. -/
theorem length_le_seek {stop : Text → Bool} {u v : Text} (hv : v ≠ []) (hstop : stop v = true) :
    v.length ≤ (seek stop (u ++ v)).length := by
  induction u with
  | nil =>
    obtain ⟨c, v, rfl⟩ := List.exists_cons_of_ne_nil hv
    rw [List.nil_append, seek, if_pos hstop]
  | cons c u ih =>
    rw [List.cons_append, seek]
    split
    · simp only [List.length_cons, List.length_append]
      omega
    · exact ih

/-- **What is read up to the closing line has no fence behind a line feed.** -/
theorem no_fence_before_closing {t part : Text}
    (h : t = part ++ seek (fun t => (afterFenceLine? t).isSome) t) :
    ¬ '\n' :: fence <:+: part := by
  rintro ⟨u, v, rfl⟩
  generalize hrest : seek (fun t => (afterFenceLine? t).isSome) t = rest at h
  have hline : afterFenceLine? ('\n' :: (fence ++ (v ++ rest))) = some (v ++ rest) :=
    afterFenceLine?_lineEnd (.inl rfl) _
  have hle : ('\n' :: (fence ++ (v ++ rest))).length ≤
      (seek (fun t => (afterFenceLine? t).isSome) (u ++ '\n' :: (fence ++ (v ++ rest)))).length :=
    length_le_seek (by simp) (by rw [hline]; rfl)
  rw [show u ++ '\n' :: (fence ++ (v ++ rest)) = t by rw [h]; simp, hrest] at hle
  simp [fence] at hle
  omega

namespace Scanner

/-! ## From place to place -/

/-- The scanner answers with the given tokens and is then at the other place. -/
structure Reads (s : Scanner) (ts : List Token) (s' : Scanner) : Prop where
  tokens_eq : s.tokens ts.length = ts
  after_eq : s.after ts.length = s'

variable {s s' s'' : Scanner} {ts ts' : List Token}

theorem Reads.nil (s : Scanner) : s.Reads [] s := ⟨rfl, rfl⟩

theorem Reads.cons (h : s.scan.2.Reads ts s') : s.Reads (s.scan.1 :: ts) s' :=
  ⟨congrArg _ h.tokens_eq, h.after_eq⟩

theorem Reads.trans (h : s.Reads ts s') (h' : s'.Reads ts' s'') : s.Reads (ts ++ ts') s'' := by
  induction ts generalizing s with
  | nil =>
    obtain rfl : s = s' := h.after_eq
    exact h'
  | cons t ts ih =>
    obtain ⟨rfl, htokens⟩ := List.cons.inj h.tokens_eq
    exact .cons (ih ⟨htokens, h.after_eq⟩)

/-- What the tokens cover, and what is left, is what was left before. -/
theorem Reads.rest_eq (h : s.Reads ts s') :
    s.rest = (ts.map Token.lexeme).flatten ++ s'.rest := by
  rw [← h.after_eq]
  conv_lhs => rw [rest_eq_lexemes_append ts.length s, h.tokens_eq]

/-! ## The opening line -/

/-- The tokens of an opening line: its words and the spaces around them. -/
def IsOpeningLine (ts : List Token) : Prop :=
  ∀ t ∈ ts, t.kind = .codeBlockAttribute ∨ t.kind = .whitespace

theorem dropWhile_to_line_end {p : Char → Bool} (hp : ∀ c, p c = true → isLineBreak c = false)
    (t : Text) :
    (t.dropWhile p).dropWhile (fun c => !isLineBreak c) = t.dropWhile fun c => !isLineBreak c := by
  induction t with
  | nil => rfl
  | cons c t ih =>
    by_cases hc : p c = true
    · rw [List.dropWhile_cons_of_pos hc, ih, List.dropWhile_cons_of_pos (by simp [hp c hc])]
    · rw [List.dropWhile_cons_of_neg hc]

theorem scan_fenceInfo {c : Char} {t : Text} (hstate : s.memory.state = .fenceInfo)
    (hrest : s.rest = c :: t) {kind : TokenKind} {rest : Text} {m : Memory}
    (h : s.memory.scanFenceInfo (c :: t) = .plain kind rest m) :
    s.scan = s.take kind none rest m := by
  refine scan_eq_take ?_
  rw [hrest, Memory.step]
  unfold Memory.stepWithin
  rw [hstate]
  exact h

/-- **A token of the opening line** leaves less of it, and the same behind it. -/
theorem scan_word {c : Char} {t : Text} (hstate : s.memory.state = .fenceInfo)
    (hrest : s.rest = c :: t) (hc : isLineBreak c = false) :
    (s.scan.1.kind = .codeBlockAttribute ∨ s.scan.1.kind = .whitespace) ∧
      s.scan.2.memory.state = .fenceInfo ∧ s.scan.2.rest.length < s.rest.length ∧
      s.scan.2.rest.dropWhile (fun c => !isLineBreak c)
        = s.rest.dropWhile fun c => !isLineBreak c := by
  have hline : ∀ c, isLineSpace c = true → isLineBreak c = false := by
    intro c h
    simp only [isLineSpace, Bool.or_eq_true, beq_iff_eq] at h
    rcases h with rfl | rfl <;> rfl
  have hbreak : passLineBreak? (c :: t) = none := Memory.passLineBreak?_of_not hc t
  by_cases hspace : isLineSpace c = true
  · have hscan : s.scan = s.take .whitespace none (t.dropWhile isLineSpace) s.memory :=
      scan_fenceInfo hstate hrest
        (by rw [Memory.scanFenceInfo, hbreak, passWhile?, if_pos hspace])
    rw [hscan, hrest]
    refine ⟨.inr rfl, hstate, Nat.lt_succ_of_le (List.dropWhile_suffix _).length_le, ?_⟩
    rw [List.dropWhile_cons_of_pos (by simp [hc])]
    exact dropWhile_to_line_end hline t
  · have hword : isSpace c = false := by
      rw [isSpace, hc, Bool.or_false]
      simpa using hspace
    have hscan : s.scan = s.take .codeBlockAttribute none (t.dropWhile fun c => !isSpace c)
        s.memory :=
      scan_fenceInfo hstate hrest
        (by rw [Memory.scanFenceInfo, hbreak, passWhile?, if_neg hspace,
              List.dropWhile_cons_of_pos (by simp [hword])])
    rw [hscan, hrest]
    refine ⟨.inl rfl, hstate, Nat.lt_succ_of_le (List.dropWhile_suffix _).length_le, ?_⟩
    rw [List.dropWhile_cons_of_pos (by simp [hc])]
    exact dropWhile_to_line_end
      (fun c h => Memory.isLineBreak_of_isSpace (by simpa using h)) t

/-- What is left of the line when its tokens have been read. -/
theorem read_words (hstate : s.memory.state = .fenceInfo) :
    ∃ words s', s.Reads words s' ∧ IsOpeningLine words ∧ s'.memory.state = .fenceInfo ∧
      s'.rest = s.rest.dropWhile fun c => !isLineBreak c := by
  induction hn : s.rest.length using Nat.strongRecOn generalizing s with
  | ind n ih =>
    subst hn
    have hdone (h : s.rest.dropWhile (fun c => !isLineBreak c) = s.rest) :
        ∃ words s', s.Reads words s' ∧ IsOpeningLine words ∧ s'.memory.state = .fenceInfo ∧
          s'.rest = s.rest.dropWhile fun c => !isLineBreak c :=
      ⟨[], s, .nil s, fun _ h => absurd h (List.not_mem_nil), hstate, h.symm⟩
    cases hrest : s.rest with
    | nil => exact hrest ▸ hdone (by rw [hrest]; rfl)
    | cons c t =>
      by_cases hc : isLineBreak c = true
      · exact hrest ▸ hdone (by rw [hrest, List.dropWhile_cons_of_neg (by simp [hc])])
      · obtain ⟨hkind, hstate', hlt, hdrop⟩ := scan_word hstate hrest (by simpa using hc)
        obtain ⟨words, s', hreads, hwords, hend, hleft⟩ := ih _ hlt hstate' rfl
        refine ⟨s.scan.1 :: words, s', hreads.cons, ?_, hend, ?_⟩
        · rintro t' (_ | ⟨_, ht⟩)
          · exact hkind
          · exact hwords t' ht
        · rw [hleft, hdrop, hrest]

/-- **The line break behind the opening line** is a token of its own. -/
theorem scan_line_end {body : Text} (hstate : s.memory.state = .fenceInfo)
    (hread : passLineBreak? s.rest = some body) :
    s.scan.1.kind = .whitespace ∧ s.scan.2.memory.state = .fenceBody ∧ s.scan.2.rest = body ∧
      Memory.lineBeginsAfter s.scan.2.before = true := by
  obtain ⟨c, t, hrest⟩ : ∃ c t, s.rest = c :: t := by
    cases hrest : s.rest with
    | nil => rw [hrest] at hread; simp [passLineBreak?] at hread
    | cons c t => exact ⟨c, t, rfl⟩
  have hscan : s.scan = s.take .whitespace none body (s.memory.goto .fenceBody) :=
    scan_fenceInfo hstate hrest (by rw [Memory.scanFenceInfo, ← hrest, hread])
  have hbreak : ∃ part c, s.rest = (part ++ [c]) ++ body ∧ isLineBreak c = true := by
    unfold passLineBreak? at hread
    split at hread
    · next heq => exact ⟨['\r'], '\n', by rw [heq, Option.some.inj hread]; rfl, rfl⟩
    · next d u _ heq =>
      split at hread
      · next hd => exact ⟨[], d, by rw [heq, Option.some.inj hread]; rfl, hd⟩
      · simp at hread
    · simp at hread
  obtain ⟨part, d, hparts, hd⟩ := hbreak
  rw [hscan, take_of_append hparts]
  refine ⟨rfl, rfl, rfl, ?_⟩
  rw [List.getLast?_concat]
  exact hd

/-! ## The body -/

/-- The tokens of what a block contains: there is at most one. -/
def IsBlockContent (ts : List Token) : Prop :=
  ts.length ≤ 1 ∧ ∀ t ∈ ts, t.kind = .codeBlockContent

/-- From behind the opening fence on, a block is read up to the first fence of its body and closed
there: the words of the opening line, what is in the block, and the closing fence. The part of the
body up to the fence is `front`, and `back` is left behind it. -/
def BlockCloses (s : Scanner) (front back : Text) : Prop :=
  ∃ words contents closing s', s.Reads (words ++ contents ++ [closing]) s' ∧
    IsOpeningLine words ∧ IsBlockContent contents ∧ closing.kind = .codeBlockEnd ∧
    (contents.map Token.lexeme).flatten ++ closing.lexeme = front ++ fence ∧ s'.rest = back

/-- From behind the opening fence on, a block is read up to the end of the text without being
closed, and `body` is what is in it. -/
def BlockRunsOut (s : Scanner) (body : Text) : Prop :=
  ∃ words contents s', s.Reads (words ++ contents) s' ∧ IsOpeningLine words ∧
    IsBlockContent contents ∧ (contents.map Token.lexeme).flatten = body ∧ s'.rest = []

variable {front back : Text}

theorem scan_fenceBody {kind : TokenKind} {rest : Text} {m : Memory}
    (hstate : s.memory.state = .fenceBody) (hne : s.rest ≠ [])
    (h : s.memory.scanFenceBody s.before s.rest = .plain kind rest m) :
    s.scan = s.take kind none rest m :=
  scan_eq_take ((Memory.step_fenceBody hstate _ _ hne).trans h)

/-- A fence at the start of the body. -/
theorem scan_fence (hstate : s.memory.state = .fenceBody)
    (hline : Memory.lineBeginsAfter s.before = true) (hrest : s.rest = fence ++ back) :
    s.scan.1.kind = .codeBlockEnd ∧ s.scan.2.rest = back := by
  have hscan : s.scan = s.take .codeBlockEnd none back (s.memory.goto .content) :=
    scan_fenceBody hstate (by rw [hrest]; simp [fence])
      (by rw [Memory.scanFenceBody, if_pos hline, strip?_eq_some.2 hrest]; rfl)
  rw [hscan]
  exact ⟨rfl, rfl⟩

/-- A line break and a fence. -/
theorem scan_closing {lineEnd : Text} (hstate : s.memory.state = .fenceBody)
    (hend : IsLineEnd lineEnd) (hrest : s.rest = lineEnd ++ (fence ++ back)) :
    s.scan.1.kind = .codeBlockEnd ∧ s.scan.2.rest = back := by
  have hscan : s.scan = s.take .codeBlockEnd none back (s.memory.goto .content) :=
    scan_fenceBody hstate (by rw [hrest]; simp [fence])
      (by rw [hrest]; exact Memory.scanFenceBody_closing hend _ _)
  rw [hscan]
  exact ⟨rfl, rfl⟩

/-- **What is in a block is read up to the closing line.** -/
theorem scan_content (hstate : s.memory.state = .fenceBody) (hne : s.rest ≠ [])
    (hfence : strip? fence s.rest = none) (hline : afterFenceLine? s.rest = none) :
    s.scan.1.kind = .codeBlockContent ∧ s.scan.2.memory.state = .fenceBody ∧
      s.scan.2.rest = seek (fun t => (afterFenceLine? t).isSome) s.rest := by
  rw [scan_fenceBody hstate hne (Memory.scanFenceBody_content hfence hline s.before)]
  exact ⟨rfl, hstate, rfl⟩

theorem isBlockContent_one {t : Token} (h : t.kind = .codeBlockContent) : IsBlockContent [t] :=
  ⟨Nat.le_refl _, fun _ ht => List.mem_singleton.1 ht ▸ h⟩

theorem isBlockContent_nil : IsBlockContent [] :=
  ⟨Nat.zero_le _, fun _ h => absurd h (List.not_mem_nil)⟩

/-- **A body is read up to its first fence behind a line feed**, or at its start. -/
theorem read_to_fence (hstate : s.memory.state = .fenceBody)
    (hline : Memory.lineBeginsAfter s.before = true)
    (h : FirstFence isLineFeed s.rest front back) :
    ∃ contents closing s', s.Reads (contents ++ [closing]) s' ∧ IsBlockContent contents ∧
      closing.kind = .codeBlockEnd ∧ s'.rest = back := by
  have hclosed {s : Scanner} (h : s.scan.1.kind = .codeBlockEnd ∧ s.scan.2.rest = back) :
      ∃ closing s', s.Reads [closing] s' ∧ closing.kind = .codeBlockEnd ∧ s'.rest = back :=
    ⟨_, _, (Reads.nil _).cons, h⟩
  by_cases hfront : front = []
  · subst hfront
    obtain ⟨closing, s', hreads, hclosing⟩ := hclosed (scan_fence hstate hline h.parts)
    exact ⟨[], closing, s', hreads, isBlockContent_nil, hclosing⟩
  obtain ⟨b, rfl, hbody⟩ := h.exists_body hfront
  have hrest : s.rest = b ++ '\n' :: (fence ++ back) := by
    rw [h.parts]
    simp
  obtain ⟨lineEnd, hend, hparts, hseek⟩ := seek_closing hbody.inside back
  cases hclosing : afterFenceLine? s.rest with
  -- the closing line is next
  | some rest =>
    have hempty : s.rest = lineEnd ++ (fence ++ back) := by
      rw [← hseek, ← hrest]
      obtain ⟨c, t, hcons⟩ := List.exists_cons_of_ne_nil (l := s.rest) (by rw [hrest]; simp)
      rw [hcons] at hclosing ⊢
      rw [seek, if_pos (by rw [hclosing]; rfl)]
    obtain ⟨closing, s', hreads, hclosing⟩ := hclosed (scan_closing hstate hend hempty)
    exact ⟨[], closing, s', hreads, isBlockContent_nil, hclosing⟩
  | none =>
    obtain ⟨hkind, hstate', hleft⟩ := scan_content hstate (by rw [hrest]; simp)
      (by rw [hrest]; exact strip?_fence_body hbody.starts _) hclosing
    rw [hrest, hseek] at hleft
    obtain ⟨closing, s', hreads, hclosing⟩ := hclosed (scan_closing hstate' hend hleft)
    exact ⟨[s.scan.1], closing, s', hreads.cons, isBlockContent_one hkind, hclosing⟩

/-- **A body with no fence behind a line feed**, and none at its start, runs to the end. -/
theorem read_to_end (hstate : s.memory.state = .fenceBody)
    (h : ∀ front back, ¬ FirstFence isLineFeed s.rest front back) :
    ∃ contents s', s.Reads contents s' ∧ IsBlockContent contents ∧ s'.rest = [] := by
  by_cases hne : s.rest = []
  · exact ⟨[], s, .nil s, isBlockContent_nil, hne⟩
  have hinner : ¬ '\n' :: fence <:+: s.rest := no_fence_of_no_firstFence h rfl
  have hfence : strip? fence s.rest = none := by
    refine Option.eq_none_iff_forall_ne_some.2 fun rest hsome => h [] rest ?_
    exact ⟨by rw [List.nil_append, strip?_eq_some.1 hsome], rfl, fun _ _ _ _ => Nat.zero_le _⟩
  have hclosing : afterFenceLine? s.rest = none := by
    by_contra hsome
    exact hinner (fence_of_afterFenceLine? (Option.isSome_iff_ne_none.2 hsome))
  obtain ⟨hkind, _, hleft⟩ := scan_content hstate hne hfence hclosing
  rw [seek_closing_eq_nil hinner] at hleft
  exact ⟨[s.scan.1], s.scan.2, (Reads.nil _).cons, isBlockContent_one hkind, hleft⟩

/-! ## A block -/

/-- The opening line up to the body, if it ends. -/
theorem read_to_body {body : Text} (hstate : s.memory.state = .fenceInfo)
    (hbody : behindLine? s.rest = some body) :
    ∃ words s', s.Reads words s' ∧ IsOpeningLine words ∧ s'.memory.state = .fenceBody ∧
      s'.rest = body ∧ Memory.lineBeginsAfter s'.before = true := by
  obtain ⟨words, s', hreads, hwords, hstate', hrest⟩ := read_words hstate
  rw [behindLine?, ← hrest] at hbody
  obtain ⟨hkind, hnext⟩ := scan_line_end hstate' hbody
  refine ⟨words ++ [s'.scan.1], s'.scan.2, hreads.trans (Reads.nil _).cons, ?_, hnext⟩
  intro t ht
  rcases List.mem_append.1 ht with ht | ht
  · exact hwords t ht
  · exact .inr (List.mem_singleton.1 ht ▸ hkind)

theorem blockCloses_of_firstFence {body : Text} (hstate : s.memory.state = .fenceInfo)
    (hbody : behindLine? s.rest = some body) (h : FirstFence isLineFeed body front back) :
    s.BlockCloses front back := by
  obtain ⟨words, s', hreads, hwords, hstate', rfl, hline⟩ := read_to_body hstate hbody
  obtain ⟨contents, closing, s'', hreads', hcontents, hclosing, hrest⟩ :=
    read_to_fence hstate' hline h
  refine ⟨words, contents, closing, s'', ?_, hwords, hcontents, hclosing, ?_, hrest⟩
  · rw [List.append_assoc]
    exact hreads.trans hreads'
  -- what was read of the body is what was in front of the rest
  · have hparts := hreads'.rest_eq
    rw [hrest, h.parts, ← List.append_assoc] at hparts
    have hread := List.append_cancel_right hparts
    rw [hread]
    simp

theorem blockRunsOut_of_no_firstFence {body : Text} (hstate : s.memory.state = .fenceInfo)
    (hbody : behindLine? s.rest = some body)
    (h : ∀ front back, ¬ FirstFence isLineFeed body front back) : s.BlockRunsOut body := by
  obtain ⟨words, s', hreads, hwords, hstate', rfl, _⟩ := read_to_body hstate hbody
  obtain ⟨contents, s'', hreads', hcontents, hrest⟩ := read_to_end hstate' h
  refine ⟨words, contents, s'', hreads.trans hreads', hwords, hcontents, ?_, hrest⟩
  rw [hreads'.rest_eq, hrest, List.append_nil]

theorem passLineBreak?_isSome {c : Char} (h : isLineBreak c = true) (t : Text) :
    (passLineBreak? (c :: t)).isSome = true := by
  by_contra hnone
  rw [Memory.passLineBreak?_eq_none (Option.not_isSome_iff_eq_none.1 hnone)] at h
  exact Bool.false_ne_true h

/-- A line that does not end goes to the end of the text. -/
theorem blockRunsOut_of_no_line_end (hstate : s.memory.state = .fenceInfo)
    (hbody : behindLine? s.rest = none) : s.BlockRunsOut [] := by
  obtain ⟨words, s', hreads, hwords, _, hrest⟩ := read_words hstate
  refine ⟨words, [], s', by rw [List.append_nil]; exact hreads, hwords, isBlockContent_nil, rfl, ?_⟩
  rw [hrest]
  by_contra hne
  obtain ⟨c, t, hcons⟩ := List.exists_cons_of_ne_nil hne
  have hc : isLineBreak c = true := by
    have hhead := List.head_dropWhile_not (fun c => !isLineBreak c) hne
    simpa [hcons] using hhead
  rw [behindLine?, hcons] at hbody
  have hsome := passLineBreak?_isSome hc t
  rw [hbody] at hsome
  exact Bool.false_ne_true hsome

/-! ## The block a token stands in -/

/-- The scanner is in a block behind whose opening fence `opened` is left: on the opening line, or
at the start of the body, or where the body ends. -/
def InBlock (opened : Text) (s : Scanner) : Prop :=
  (s.memory.state = .fenceInfo ∧
    s.rest.dropWhile (fun c => !isLineBreak c) = opened.dropWhile fun c => !isLineBreak c) ∨
  (s.memory.state = .fenceBody ∧ ∃ body, behindLine? opened = some body ∧
    ((s.rest = body ∧ Memory.lineBeginsAfter s.before = true) ∨ s.rest = [] ∨
      (afterFenceLine? s.rest).isSome = true))

/-- Whether the scanner is in a block. -/
def AmidBlock (s : Scanner) : Prop :=
  s.memory.state = .fenceInfo ∨ s.memory.state = .fenceBody

/-- A token of a block leads to another place in it, or closes it. -/
theorem InBlock.scan {opened : Text} (h : s.InBlock opened) :
    s.scan.2.InBlock opened ∨ s.scan.2.memory.state = .content := by
  by_cases hne : s.rest = []
  · refine .inl ?_
    rw [scan_at_end hne]
    unfold InBlock at h ⊢
    simpa [take, hne, Text.before] using h
  rcases h with ⟨hstate, hline⟩ | ⟨hstate, body, hbody, hplace⟩
  · refine .inl ?_
    obtain ⟨c, t, hrest⟩ := List.exists_cons_of_ne_nil hne
    by_cases hc : isLineBreak c = true
    · obtain ⟨body, hread⟩ := Option.isSome_iff_exists.1 (passLineBreak?_isSome hc t)
      have hbody : behindLine? opened = some body := by
        rw [behindLine?, ← hline, hrest, List.dropWhile_cons_of_neg (by simp [hc]), hread]
      obtain ⟨_, hnext⟩ := scan_line_end hstate (hrest ▸ hread)
      exact .inr ⟨hnext.1, body, hbody, .inl hnext.2⟩
    · obtain ⟨_, hstate', _, hdrop⟩ := scan_word hstate hrest (by simpa using hc)
      exact .inl ⟨hstate', hdrop.trans hline⟩
  · cases hmove : s.memory.scanFenceBody s.before s.rest with
    | token kind error rest m =>
      have hscan := scan_eq_take ((Memory.step_fenceBody hstate s.dialect s.before hne).trans hmove)
      unfold Memory.scanFenceBody at hmove
      dsimp only at hmove
      split at hmove
      · obtain ⟨_, _, _, rfl⟩ := Move.token.inj hmove
        exact .inr (by rw [hscan]; rfl)
      · obtain ⟨_, _, rfl, rfl⟩ := Move.token.inj hmove
        rw [hscan]
        refine .inl (.inr ⟨hstate, body, hbody, .inr ?_⟩)
        exact Classical.or_iff_not_imp_left.2 fun hleft => seek_stops hleft
    | turn m =>
      unfold Memory.scanFenceBody at hmove
      dsimp only at hmove
      split at hmove <;> simp [Move.plain] at hmove

end Scanner

namespace Stage

variable {dialect : Dialect} {text : Text} {st : Stage}

/-- **Only an opening fence leads into a block.** -/
theorem Of.opens_block (hof : st.Of dialect text) (hout : ¬ st.scanner.AmidBlock)
    (hin : st.scanner.scan.2.AmidBlock) :
    st.scanner.scan.1.kind = .codeBlockStart ∧ st.scanner.scan.2.memory.state = .fenceInfo := by
  have hne : st.scanner.rest ≠ [] := by
    intro hnil
    rw [Scanner.scan_at_end hnil] at hin
    exact hout hin
  obtain ⟨deal, hsynced⟩ := hof.synced
  have hprose := hof.inProse
  obtain ⟨kind, error, rest, m, hyields, hstep⟩ :=
    hprose.exists_step st.scanner.dialect st.scanner.before hne
  rw [Scanner.scan_eq_take hstep] at hin ⊢
  simp only [Scanner.AmidBlock, Scanner.take, Memory.InProse] at hout hin hprose ⊢
  cases hyields with
  | codeBlockStart _ _ _ => exact ⟨rfl, rfl⟩
  | commentEnd state _ =>
    -- what a comment returns to is no block
    simp only [ProseArtifacts.Synced, state] at hsynced
    rcases hsynced with ⟨hreturn, _⟩ | ⟨hreturn, _⟩ <;> simp [Memory.leave, hreturn] at hin
  | rawText e state _ _ => cases e <;> simp [state] at hprose
  | _ => simp_all [Memory.goto, Memory.enter]

end Stage

namespace Scanner

variable {dialect : Dialect} {text : Text}

/-- **In a block there is a fence that opened it.** -/
theorem exists_opening (prose : dialect ≠ .template) (n : Nat)
    (hin : ((start dialect text).after n).AmidBlock) :
    ∃ m, m < n ∧ ((start dialect text).after m).scan.1.kind = .codeBlockStart ∧
      ((start dialect text).after n).InBlock ((start dialect text).after (m + 1)).rest := by
  induction n with
  | zero => simp [AmidBlock, after, start] at hin
  | succ n ih =>
    rw [after_succ] at hin ⊢
    have hof := (Stage.of_start prose text).after n
    have hplace : ((Stage.start dialect text).after n).scanner = (start dialect text).after n :=
      Stage.scanner_after n _
    by_cases hamid : ((start dialect text).after n).AmidBlock
    · obtain ⟨m, hlt, hopens, hblock⟩ := ih hamid
      refine ⟨m, Nat.lt_succ_of_lt hlt, hopens, hblock.scan.resolve_right fun hcontent => ?_⟩
      rcases hin with hin | hin <;> rw [hcontent] at hin <;> cases hin
    · obtain ⟨hkind, hstate⟩ := hof.opens_block (hplace ▸ hamid) (hplace ▸ hin)
      rw [hplace] at hkind hstate
      exact ⟨n, Nat.lt_succ_self n, hkind, .inl ⟨hstate, by rw [after_succ]⟩⟩

/-- An opening fence is a fence, and the opening line is behind it. -/
theorem scan_opening {s : Scanner} (h : s.scan.1.kind = .codeBlockStart) :
    s.scan.1.lexeme = fence ∧ s.scan.2.memory.state = .fenceInfo := by
  have hne : s.rest ≠ [] := by
    intro hnil
    rw [scan_at_end hnil] at h
    simp [take] at h
  obtain ⟨m, kind, error, rest, m', _, hyields, hscan⟩ := scan_before_end hne
  rw [hscan] at h ⊢
  obtain rfl : kind = .codeBlockStart := h
  cases hyields with
  | codeBlockStart _ _ read =>
    rw [take_of_append read]
    exact ⟨rfl, rfl⟩

/-- What is in a block was read in a body that no fence closes here. -/
theorem scan_blockContent {s : Scanner} (h : s.scan.1.kind = .codeBlockContent) :
    s.rest = s.scan.1.lexeme ++ seek (fun t => (afterFenceLine? t).isSome) s.rest ∧
      s.rest ≠ [] ∧ afterFenceLine? s.rest = none ∧
      (Memory.lineBeginsAfter s.before = true → strip? fence s.rest = none) := by
  have hne : s.rest ≠ [] := by
    intro hnil
    rw [scan_at_end hnil] at h
    simp [take] at h
  obtain ⟨m, kind, error, rest, m', hturns, hyields, hscan⟩ := scan_before_end hne
  have hreads := s.scan_reads
  rw [hscan] at h hreads ⊢
  obtain rfl : kind = .codeBlockContent := h
  cases hyields with
  | codeBlockContent _ line read => exact ⟨hreads, hne, read, line⟩

theorem state_of_content (prose : dialect ≠ .template) {n : Nat}
    (h : ((start dialect text).after n).scan.1.kind = .codeBlockContent) :
    ((start dialect text).after n).memory.state = .fenceBody := by
  have hprose := ((Stage.of_start prose text).after n).inProse
  rw [Stage.scanner_after] at hprose
  have hne := (scan_blockContent h).2.1
  obtain ⟨m, kind, error, rest, m', hturns, hyields, hscan⟩ := scan_before_end hne
  rw [hturns.eq_of_rank hprose.rank_eq_zero] at hyields
  rw [hscan] at h
  obtain rfl : kind = .codeBlockContent := h
  cases hyields with
  | codeBlockContent state _ _ => exact state

/-- **What is in a block is read from the start of its body.** -/
theorem exists_body_of_content (prose : dialect ≠ .template) {n : Nat}
    (h : ((start dialect text).after n).scan.1.kind = .codeBlockContent) :
    ∃ m, m < n ∧ ((start dialect text).after m).scan.1.kind = .codeBlockStart ∧
      behindLine? ((start dialect text).after (m + 1)).rest
        = some ((start dialect text).after n).rest ∧
      Memory.lineBeginsAfter ((start dialect text).after n).before = true := by
  have hstate := state_of_content prose h
  obtain ⟨_, hne, hclosing, _⟩ := scan_blockContent h
  obtain ⟨m, hlt, hopens, hblock⟩ := exists_opening prose n (.inr hstate)
  refine ⟨m, hlt, hopens, ?_⟩
  rcases hblock with ⟨hinfo, _⟩ | ⟨_, body, hbody, ⟨rfl, hline⟩ | hend | hend⟩
  · rw [hstate] at hinfo
    cases hinfo
  · exact ⟨hbody, hline⟩
  · exact absurd hend hne
  · rw [hclosing] at hend
    exact absurd hend Bool.false_ne_true

/-- If the first fence is where the scanner looks for one, then none begins a line of what it
finds in front of it. -/
theorem no_fence_in_content {s : Scanner} (hfeed : FenceOnFeed s.rest)
    (hline : Memory.lineBeginsAfter s.before = true) (h : s.scan.1.kind = .codeBlockContent)
    {c : Char} (hc : isLineBreak c = true) : ¬ c :: fence <:+: s.scan.1.lexeme := by
  obtain ⟨hreads, _, _, hstart⟩ := scan_blockContent h
  by_cases hfirst : ∃ front back, FirstFence isLineBreak s.rest front back
  · obtain ⟨front, back, hfirst⟩ := hfirst
    have hfeedFirst : FirstFence isLineFeed s.rest front back :=
      hfirst.mono (fun _ => isLineBreak_of_isLineFeed) (hfeed front back hfirst)
    have hfront : front ≠ [] := by
      rintro rfl
      have hsome : strip? fence s.rest = some back := strip?_eq_some.2 hfirst.parts
      rw [hstart hline] at hsome
      cases hsome
    obtain ⟨b, rfl, hbody⟩ := hfeedFirst.exists_body hfront
    have hrest : s.rest = b ++ '\n' :: (fence ++ back) := by
      rw [hfirst.parts]
      simp
    obtain ⟨lineEnd, _, _, hseek⟩ := seek_closing hbody.inside back
    rw [← hrest] at hseek
    rw [hseek, hfirst.parts, ← List.append_assoc _ lineEnd] at hreads
    have hfront : b ++ ['\n'] = s.scan.1.lexeme ++ lineEnd := List.append_cancel_right hreads
    exact fun hinner => hfirst.no_fence_before hc (hinner.trans ⟨[], lineEnd, hfront.symm⟩)
  · push Not at hfirst
    have hall := no_fence_of_no_firstFence hfirst hc
    exact fun hinner => hall (hinner.trans ⟨[], _, hreads.symm⟩)

/-- **Blocks end at fences.** In a document of prose, a block opens with a fence. If the opening
line ends, then what is behind it is the body, and the block is closed at the first fence of the
body that is at its start or behind a line feed; if there is none, it goes to the end of the text.
That is the first fence at the start of a line, whatever line break is in front of it, unless the
first of those is right behind a carriage return or a form feed. What is found in a block belongs
to the body of a block that was opened, and has no fence behind a line feed, and with the same
exception none at the start of a line. -/
theorem block_ends (prose : dialect ≠ .template) (text : Text) (n : Nat) :
    let s := (start dialect text).after n
    (s.scan.1.kind = .codeBlockStart →
      s.scan.1.lexeme = fence ∧
      (behindLine? s.scan.2.rest = none → s.scan.2.BlockRunsOut []) ∧
      ∀ body, behindLine? s.scan.2.rest = some body →
        (∀ front back, FirstFence isLineFeed body front back → s.scan.2.BlockCloses front back) ∧
        ((∀ front back, ¬ FirstFence isLineFeed body front back) → s.scan.2.BlockRunsOut body) ∧
        (FenceOnFeed body →
          (∀ front back, FirstFence isLineBreak body front back →
            s.scan.2.BlockCloses front back) ∧
          ((∀ front back, ¬ FirstFence isLineBreak body front back) →
            s.scan.2.BlockRunsOut body))) ∧
    (s.scan.1.kind = .codeBlockContent →
      ¬ '\n' :: fence <:+: s.scan.1.lexeme ∧
      ∃ m body, m < n ∧ ((start dialect text).after m).scan.1.kind = .codeBlockStart ∧
        behindLine? ((start dialect text).after (m + 1)).rest = some body ∧ s.rest = body ∧
        (FenceOnFeed body →
          ∀ c, isLineBreak c = true → ¬ c :: fence <:+: s.scan.1.lexeme)) := by
  intro s
  refine ⟨fun hopens => ?_, fun hcontent => ⟨?_, ?_⟩⟩
  · obtain ⟨hfence, hstate⟩ := scan_opening hopens
    refine ⟨hfence, blockRunsOut_of_no_line_end hstate, fun body hbody =>
      ⟨fun front back h => blockCloses_of_firstFence hstate hbody h,
        blockRunsOut_of_no_firstFence hstate hbody, fun hfeed =>
          ⟨fun front back h => ?_, fun hnone => ?_⟩⟩⟩
    · exact blockCloses_of_firstFence hstate hbody
        (h.mono (fun _ => isLineBreak_of_isLineFeed) (hfeed front back h))
    · refine blockRunsOut_of_no_firstFence hstate hbody fun front back h => ?_
      have hline : front.getLast?.all isLineBreak = true :=
        h.line_mono fun _ => isLineBreak_of_isLineFeed
      obtain ⟨front', back', h', _⟩ := exists_firstFence h.parts hline
      exact hnone front' back' h'
  · exact no_fence_before_closing (scan_blockContent hcontent).1
  · obtain ⟨m, hlt, hopens, hbody, hline⟩ := exists_body_of_content prose hcontent
    exact ⟨m, _, hlt, hopens, hbody, rfl, fun hfeed _ hc =>
      no_fence_in_content hfeed hline hcontent hc⟩

/-- A block whose lines end in all kinds of ways, and the fence that closes it is behind a line
feed. -/
theorem block_ends_mixed_lines :
    let text : Text := "a\n\n```ts x\rb\x0cc\r\n```\r```".toList
    let s := (start .markdown text).after 3
    (Dialect.markdown ≠ .template ∧ s.scan.1.kind = .codeBlockStart ∧
      behindLine? s.scan.2.rest = some "b\x0cc\r\n```\r```".toList ∧
      FirstFence isLineBreak "b\x0cc\r\n```\r```".toList "b\x0cc\r\n".toList "\r```".toList ∧
      FenceOnFeed "b\x0cc\r\n```\r```".toList) ∧
    s.scan.2.BlockCloses "b\x0cc\r\n".toList "\r```".toList := by
  have hfirst : FirstFence isLineBreak "b\x0cc\r\n```\r```".toList "b\x0cc\r\n".toList
      "\r```".toList :=
    firstFence_of_not_mem rfl (by decide) rfl
  have hfeed : FenceOnFeed "b\x0cc\r\n```\r```".toList :=
    fun front back h => by rw [h.front_eq hfirst]; rfl
  have hopens : ((start .markdown "a\n\n```ts x\rb\x0cc\r\n```\r```".toList).after 3).scan.1.kind
      = .codeBlockStart := by decide +kernel
  have hbody : behindLine? ((start .markdown
      "a\n\n```ts x\rb\x0cc\r\n```\r```".toList).after 3).scan.2.rest
      = some "b\x0cc\r\n```\r```".toList := by decide +kernel
  refine ⟨⟨by decide, hopens, hbody, hfirst, hfeed⟩, ?_⟩
  have hprose : Dialect.markdown ≠ .template := by decide
  obtain ⟨hblock, _⟩ := block_ends hprose "a\n\n```ts x\rb\x0cc\r\n```\r```".toList 3
  exact (((hblock hopens).2.2 _ hbody).2.2 hfeed).1 _ _ hfirst

/-- **A fence behind a carriage return is overlooked**, although it begins a line: the block is not
closed at all, and the fence is part of what is found in it. -/
theorem fence_overlooked :
    let text : Text := "```\na\r```".toList
    let s := start .markdown text
    s.scan.1.kind = .codeBlockStart ∧ behindLine? s.scan.2.rest = some "a\r```".toList ∧
      FirstFence isLineBreak "a\r```".toList "a\r".toList [] ∧
      (∀ t ∈ tokenize .markdown text, t.kind ≠ .codeBlockEnd) ∧
      ∃ t ∈ tokenize .markdown text, t.kind = .codeBlockContent ∧ '\r' :: fence <:+: t.lexeme := by
  refine ⟨by decide +kernel, by decide +kernel, firstFence_of_not_mem rfl (by decide) rfl,
    by decide +kernel, by decide +kernel⟩

end Scanner

end HybridMarkup
