/-
Every step of the scanner is the same whichever way the lines of the text end.

A step in front of the text with the other line endings yields the same token and remembers the
same, and leaves the rewritten rest (`step_crlf`), as long as the readers take alike what it reads
(`Move.Steady`): no string of the host language goes over a line break behind a backslash, and no
unfinished import ends at a blank line. There is a lemma for every context; those that read no host
code need no condition.
-/
import HybridMarkup.Proofs.LineEndingReaders

set_option autoImplicit false

namespace HybridMarkup

open Text HostCode

/-- The same move in front of the text with the other line endings. -/
def Move.crlf : Move → Move
  | .token kind error rest m => .token kind error (Text.crlf rest) m
  | .turn m => .turn m

/-- The tokens that strings of the host language are stepped over in. -/
def TokenKind.holdsStrings : TokenKind → Bool
  | .importStatement | .jsxExpression | .blockExpression | .attributeValue | .mustacheContent
  | .rawText => true
  | _ => false

/-- In what is read no string goes over a line break behind a backslash, and an import does not end
at a blank line: one without a module string has a quote in it, or it is all that is left. -/
def Move.Steady (t : Text) : Move → Prop
  | .token kind error rest _ =>
    (kind.holdsStrings = true → Calm t rest) ∧
      (kind = .importStatement → error = some .importUnterminated → rest ≠ [] →
        ∃ c ∈ before t rest, c = '\'' ∨ c = '"')
  | .turn _ => True

/-! ## Rules -/

theorem readsAlike_strip? {beginning : Text} (hn : '\n' ∉ beginning) (hr : '\r' ∉ beginning) :
    ReadsAlike (strip? beginning) := fun t _ => strip?_crlf hn hr t

theorem readsAlike_commentOpening : ReadsAlike (strip? commentOpening) :=
  readsAlike_strip? (by decide) (by decide)

theorem readsAlike_commentClosing : ReadsAlike (strip? commentClosing) :=
  readsAlike_strip? (by decide) (by decide)

theorem readsAlike_fence : ReadsAlike (strip? fence) := readsAlike_strip? (by decide) (by decide)

theorem readsAlike_mustacheOpening : ReadsAlike (strip? mustacheOpening) :=
  readsAlike_strip? (by decide) (by decide)

theorem readsAlike_mustacheClosing : ReadsAlike (strip? mustacheClosing) :=
  readsAlike_strip? (by decide) (by decide)

theorem readsAlike_passWhile? {p : Char → Bool} (hp : p '\r' = p '\n') :
    ReadsAlike (passWhile? p) := fun t _ => passWhile?_crlf hp t

theorem readsAlike_passLineBreak? : ReadsAlike passLineBreak? := by
  intro t hr
  rcases t with _ | ⟨c, t⟩
  · rfl
  have hc : c ≠ '\r' := by
    rintro rfl
    exact hr List.mem_cons_self
  have hpass (u : Text) : passLineBreak? (c :: u) = if isLineBreak c then some u else none := by
    rw [passLineBreak?]
    rintro v rfl
    exact absurd rfl hc
  by_cases hfeed : c = '\n'
  · subst hfeed
    rfl
  · rw [crlf_cons hfeed, hpass, hpass]
    split <;> rfl

theorem readsAlike_afterFenceLine? : ReadsAlike afterFenceLine? := by
  intro t hr
  rcases t with _ | ⟨c, t⟩
  · rfl
  have hc : c ≠ '\r' := by
    rintro rfl
    exact hr List.mem_cons_self
  by_cases hfeed : c = '\n'
  · subst hfeed
    exact strip?_crlf (by decide) (by decide) t
  · rw [crlf_cons hfeed]
    simp [afterFenceLine?, hc, hfeed]

theorem readsAlike_passElementName? : ReadsAlike passElementName? := by
  intro t _
  rcases t with _ | ⟨c, t⟩
  · rfl
  by_cases hfeed : c = '\n'
  · subst hfeed
    have hreturn : beginsName '\r' = false := by decide +kernel
    have hfeed : beginsName '\n' = false := by decide +kernel
    simp [passElementName?, hreturn, hfeed]
  · rw [crlf_cons hfeed, passElementName?, passElementName?, dropWhile_crlf (by decide +kernel)]
    split <;> rfl

theorem dropWhile_of_passWhile? {p : Char → Bool} {t rest : Text}
    (h : passWhile? p t = some rest) : t.dropWhile p = rest := by
  cases t with
  | nil => simp [passWhile?] at h
  | cons c t =>
    by_cases hc : p c = true
    · simpa [passWhile?, hc] using h
    · simp [passWhile?, hc] at h

/-- The characters of a name are the same before and after. -/
theorem before_crlf_dropWhile {p : Char → Bool} (hp : p '\n' = false) (t : Text) :
    before (crlf t) (crlf (t.dropWhile p)) = before t (t.dropWhile p) := by
  have hname : before t (t.dropWhile p) = t.takeWhile p := by
    have hsplit := before_append (t.takeWhile p) (t.dropWhile p)
    rwa [List.takeWhile_append_dropWhile] at hsplit
  rw [before_crlf (List.dropWhile_suffix p), hname]
  refine crlf_eq_self fun hmem => ?_
  have hall := List.all_eq_true.1 (List.all_takeWhile (p := p) (l := t)) _ hmem
  rw [hp] at hall
  exact Bool.noConfusion hall

theorem before_crlf_of_passElementName? {t rest : Text} (h : passElementName? t = some rest) :
    before (crlf t) (crlf rest) = before t rest := by
  rcases t with _ | ⟨c, t⟩
  · simp [passElementName?] at h
  by_cases hc : beginsName c = true
  · rw [passElementName?, if_pos hc] at h
    obtain rfl := Option.some.inj h
    have hfeed : c ≠ '\n' := by
      rintro rfl
      exact absurd hc (by decide +kernel)
    rw [crlf_cons hfeed, before_cons (List.dropWhile_suffix _),
      ← before_crlf_dropWhile (by decide +kernel) t]
    rw [← dropWhile_crlf (by decide +kernel)]
    exact before_cons (List.dropWhile_suffix _) c
  · rw [passElementName?, if_neg hc] at h
    simp at h

namespace Move

variable {move move' : Move} {find : Text → Option Text} {t : Text}

/-- A rule applies where something is found, and leaves what is behind it. -/
theorem crlf_match (hfind : ReadsAlike find) (hr : '\r' ∉ t) (kind : TokenKind)
    (error : Option LexError) (m : Memory) (hmove : find t = none → move' = move.crlf) :
    (match find (Text.crlf t) with
      | some rest => Move.token kind error rest m
      | none => move') =
    (match find t with
      | some rest => Move.token kind error rest m
      | none => move).crlf := by
  rw [hfind t hr]
  cases hfound : find t with
  | none => exact hmove hfound
  | some rest => rfl

/-- What is tried first is left to what is tried next. -/
theorem crlf_getD {scan : Text → Option Move}
    (hscan : (∀ found, scan t = some found → found.Steady t) →
      scan (Text.crlf t) = (scan t).map Move.crlf)
    (steady : ((scan t).getD move).Steady t) (hmove : scan t = none → move' = move.crlf) :
    (scan (Text.crlf t)).getD move' = ((scan t).getD move).crlf := by
  cases hfound : scan t with
  | none =>
    rw [hscan (by simp [hfound]), hfound]
    exact hmove hfound
  | some found =>
    rw [hfound] at steady
    rw [hscan (by rw [hfound]; rintro _ ⟨⟩; exact steady), hfound]
    rfl

end Move

namespace Memory

variable {m : Memory} {dialect : Dialect} {t : Text}

/-! ## Prose -/

theorem scanComment_crlf (hr : '\r' ∉ t) : m.scanComment (crlf t) = (m.scanComment t).crlf := by
  unfold scanComment
  refine Move.crlf_match readsAlike_commentClosing hr _ _ _ fun _ => ?_
  rw [seekTo_crlf (by decide) (by decide) (by decide) hr]
  rfl

theorem neutral_atTextEnd (dialect : Dialect) : Neutral (atTextEnd dialect) := by
  intro t _
  rcases t with _ | ⟨c, t⟩
  · rfl
  by_cases hfeed : c = '\n'
  · subst hfeed
    rfl
  have hcomment := startsWith_crlf (show '\n' ∉ commentOpening by decide) (by decide) (c :: t)
  have hhead := head?_crlf_any (show opensElement '\r' = opensElement '\n' by decide) t
  rw [crlf_cons hfeed] at hcomment ⊢
  rw [atTextEnd, atTextEnd, hcomment, hhead]

theorem scanText_crlf (hr : '\r' ∉ t) (hfeed : ∀ u, t ≠ '\n' :: u) :
    m.scanText dialect (crlf t) = (m.scanText dialect t).crlf := by
  unfold scanText
  rw [neutral_atTextEnd dialect t hr, seek_crlf (neutral_atTextEnd dialect) _ hr]
  · rw [drop_one_crlf hfeed]
    split <;> rfl
  · intro u _ h
    simp [atTextEnd, isLineBreak] at h

theorem scanHostCode?_crlf (hr : '\r' ∉ t)
    (steady : ∀ move, m.scanHostCode? t = some move → move.Steady t) :
    m.scanHostCode? (crlf t) = (m.scanHostCode? t).map Move.crlf := by
  rcases t with _ | ⟨c, t⟩
  · rfl
  by_cases hfeed : c = '\n'
  · subst hfeed
    rfl
  have htail : '\r' ∉ t := fun hmem => hr (List.mem_cons_of_mem c hmem)
  by_cases hbrace : c = '{'
  · subst hbrace
    have hcalm : Calm t ((skipBraces t).getD []) := by
      rw [scanHostCode?] at steady
      cases hread : skipBraces t with
      | none =>
        rw [hread] at steady
        exact ((steady _ rfl).1 rfl).from_suffix (List.suffix_cons _ t) List.nil_suffix
      | some rest =>
        rw [hread] at steady
        exact ((steady _ rfl).1 rfl).from_suffix (List.suffix_cons _ t)
          (skipBraces_suffix t rest hread)
    rw [crlf_cons hfeed, scanHostCode?, scanHostCode?, skipBraces_crlf htail hcalm]
    cases skipBraces t <;> rfl
  by_cases hangle : c = '<'
  · subst hangle
    rw [crlf_cons hfeed]
    rcases t with _ | ⟨d, t⟩
    · rfl
    by_cases hopens : opensElement d = true
    · have hd : d ≠ '\n' := by
        rintro rfl
        simp [opensElement] at hopens
      have hcalm : Calm (d :: t) ((skipJsx (d :: t)).getD []) := by
        rw [scanHostCode?, if_pos hopens] at steady
        cases hread : skipJsx (d :: t) with
        | none =>
          rw [hread] at steady
          exact ((steady _ rfl).1 rfl).from_suffix (List.suffix_cons _ _) List.nil_suffix
        | some rest =>
          rw [hread] at steady
          exact ((steady _ rfl).1 rfl).from_suffix (List.suffix_cons _ _)
            (skipJsx_suffix _ rest hread)
      have hread := skipJsx_crlf htail hcalm
      rw [crlf_cons hd] at hread ⊢
      rw [scanHostCode?, scanHostCode?, if_pos hopens, if_pos hopens, hread]
      cases skipJsx (d :: t) <;> rfl
    · by_cases hd : d = '\n'
      · subst hd
        rfl
      · rw [crlf_cons hd, scanHostCode?, scanHostCode?, if_neg hopens, if_neg hopens]
        rfl
  · rw [crlf_cons hfeed]
    simp [scanHostCode?, hbrace, hangle]

theorem scanImport?_crlf (hr : '\r' ∉ t)
    (steady : ∀ move, m.scanImport? t = some move → move.Steady t) :
    m.scanImport? (crlf t) = (m.scanImport? t).map Move.crlf := by
  unfold scanImport? at steady ⊢
  rw [atImport_crlf]
  by_cases himport : atImport t = true
  · obtain ⟨u, rfl⟩ := exists_of_keyword himport
    have hu : u <:+ importKeyword ++ u := List.suffix_append _ u
    have hkeyword : crlf (importKeyword ++ u) = importKeyword ++ crlf u := by
      rw [crlf_append, crlf_eq_self (by decide)]
    rw [if_pos himport, List.drop_left] at steady
    rw [if_pos himport, if_pos himport, hkeyword, List.drop_left, List.drop_left]
    have hrest := skipImport_suffix u
    have hread := skipImport_crlf (not_mem_of_suffix hr hu)
    cases hfound : skipImport u with
    | mk found rest =>
      rw [hfound] at steady hrest hread
      have hsteady : Calm (importKeyword ++ u) rest ∧ (found = false → rest ≠ [] →
          ∃ c ∈ before (importKeyword ++ u) rest, c = '\'' ∨ c = '"') := by
        cases found with
        | true => exact ⟨(steady _ rfl).1 rfl, by simp⟩
        | false => exact ⟨(steady _ rfl).1 rfl, fun _ => (steady _ rfl).2 rfl rfl⟩
      rw [hread (hsteady.1.from_suffix hu hrest)]
      · cases found <;> rfl
      · intro hopen hne
        obtain ⟨c, hc, hquote⟩ := hsteady.2 hopen hne
        rw [before_append_of_suffix hrest, List.mem_append] at hc
        -- the keyword has no quote
        refine ⟨c, hc.resolve_left fun hmem => ?_, hquote⟩
        rcases hquote with rfl | rfl <;> simp [importKeyword] at hmem
  · rw [if_neg himport, if_neg himport]
    rfl

theorem scanLineStart_crlf (hr : '\r' ∉ t) (hfeed : ∀ u, t ≠ '\n' :: u)
    (steady : (m.scanLineStart dialect t).Steady t) :
    m.scanLineStart dialect (crlf t) = (m.scanLineStart dialect t).crlf := by
  unfold scanLineStart at steady ⊢
  refine Move.crlf_match readsAlike_fence hr _ _ _ fun hnone => ?_
  rw [hnone] at steady
  dsimp only at steady
  by_cases mdx : dialect = .mdx
  · rw [if_pos mdx, Option.getD_or] at steady
    rw [if_pos mdx, if_pos mdx, Option.getD_or, Option.getD_or]
    refine Move.crlf_getD (fun h => scanImport?_crlf hr h) steady fun himport => ?_
    rw [himport] at steady
    exact Move.crlf_getD (fun h => scanHostCode?_crlf hr h) steady fun _ => scanText_crlf hr hfeed
  · rw [if_neg mdx, if_neg mdx, scanText_crlf hr hfeed]

theorem scanInline_crlf (hr : '\r' ∉ t) (steady : (m.scanInline dialect t).Steady t) :
    m.scanInline dialect (crlf t) = (m.scanInline dialect t).crlf := by
  unfold scanInline at steady ⊢
  refine Move.crlf_match readsAlike_passLineBreak? hr _ _ _ fun hline => ?_
  rw [hline] at steady
  refine Move.crlf_match readsAlike_commentOpening hr _ _ _ fun hcomment => ?_
  rw [hcomment] at steady
  have hfeed (u : Text) : t ≠ '\n' :: u := by
    rintro rfl
    simp [passLineBreak?, isLineBreak] at hline
  dsimp only at steady
  by_cases mdx : dialect = .mdx
  · rw [if_pos mdx] at steady
    rw [if_pos mdx, if_pos mdx]
    exact Move.crlf_getD (fun h => scanHostCode?_crlf hr h) steady fun _ => scanText_crlf hr hfeed
  · rw [if_neg mdx, if_neg mdx, scanText_crlf hr hfeed]

theorem scanFenceInfo_crlf (hr : '\r' ∉ t) :
    m.scanFenceInfo (crlf t) = (m.scanFenceInfo t).crlf := by
  unfold scanFenceInfo
  refine Move.crlf_match readsAlike_passLineBreak? hr _ _ _ fun _ => ?_
  refine Move.crlf_match (readsAlike_passWhile? (by decide)) hr _ _ _ fun _ => ?_
  rw [dropWhile_crlf (by decide)]
  rfl

theorem scanFenceBody_crlf (hr : '\r' ∉ t) (before : Option Char) :
    m.scanFenceBody before (crlf t) = (m.scanFenceBody before t).crlf := by
  unfold scanFenceBody
  have hfind : ReadsAlike fun t =>
      (if lineBeginsAfter before then strip? fence t else none).or (afterFenceLine? t) := by
    intro t hr
    dsimp only
    rw [readsAlike_afterFenceLine? t hr]
    split
    · rw [readsAlike_fence t hr, Option.map_or]
    · rfl
  refine Move.crlf_match hfind hr _ _ _ fun _ => ?_
  rw [seek_crlf readsAlike_afterFenceLine?.isSome _ hr]
  · rfl
  · intro u hu h
    change (strip? fence (crlf u)).isSome = false
    rw [readsAlike_fence u hu, Option.isSome_map]
    exact h

/-! ## Templates -/

theorem neutral_startsWith_mustacheOpening : Neutral (startsWith mustacheOpening) :=
  fun t _ => startsWith_crlf (by decide) (by decide) t

theorem neutral_atMarkup : Neutral atMarkup := by
  intro t hr
  have hmustache := neutral_startsWith_mustacheOpening t hr
  rcases t with _ | ⟨c, t⟩
  · rfl
  by_cases hfeed : c = '\n'
  · subst hfeed
    rfl
  by_cases hangle : c = '<'
  · subst hangle
    rfl
  · rw [crlf_cons hfeed] at hmustache ⊢
    simpa [atMarkup, hangle] using hmustache

theorem scanTemplate_open (hslash : ∀ u, t ≠ '/' :: u) :
    m.scanTemplate ('<' :: t) = .plain .startTagOpen t (m.goto .startTagName) := by
  unfold scanTemplate
  split <;> simp_all

theorem scanTemplate_crlf (hr : '\r' ∉ t) : m.scanTemplate (crlf t) = (m.scanTemplate t).crlf := by
  have hseek : seek atMarkup (crlf t) = crlf (seek atMarkup t) :=
    seek_crlf neutral_atMarkup (fun _ _ _ => rfl) hr
  unfold scanTemplate
  split
  · next u heq =>
    obtain ⟨v, rfl, hv⟩ := crlf_eq_cons (by decide) heq
    obtain ⟨w, rfl, rfl⟩ := crlf_eq_cons (by decide) hv.symm
    rfl
  · next u hslash heq =>
    obtain ⟨v, rfl, rfl⟩ := crlf_eq_cons (by decide) heq
    have hv (w : Text) : v ≠ '/' :: w := by
      rintro rfl
      exact hslash (crlf w) rfl
    change _ = (m.scanTemplate ('<' :: v)).crlf
    rw [scanTemplate_open hv]
    rfl
  · next u heq =>
    obtain ⟨v, rfl, hv⟩ := crlf_eq_cons (by decide) heq
    obtain ⟨w, rfl, rfl⟩ := crlf_eq_cons (by decide) hv.symm
    rfl
  · next hend hstart hmustache =>
    split
    · exact absurd rfl (hend _)
    · next u _ => exact absurd rfl (hstart (crlf u))
    · exact absurd rfl (hmustache _)
    · rw [hseek]
      rfl

/-- Where no name stands, the text is passed over up to a bracket. -/
theorem scanNameless_crlf (error : LexError) (t : Text) :
    m.scanNameless error (crlf t) = (m.scanNameless error t).crlf := by
  unfold scanNameless
  dsimp only
  rw [seekAny_crlf (by decide)]
  by_cases hshorter : (seekAny ['>', '<'] t).length < t.length
  · rw [if_pos hshorter, if_pos ((crlf_shorter_iff (seekAny_suffix _ t)).2 hshorter)]
    rfl
  · rw [if_neg hshorter, if_neg (mt (crlf_shorter_iff (seekAny_suffix _ t)).1 hshorter)]
    rfl

theorem scanStartTagName_crlf (hr : '\r' ∉ t) :
    m.scanStartTagName (crlf t) = (m.scanStartTagName t).crlf := by
  unfold scanStartTagName
  rw [readsAlike_passElementName? t hr]
  cases hname : passElementName? t with
  | some rest =>
    dsimp only [Option.map_some]
    rw [before_crlf_of_passElementName? hname]
    rfl
  | none =>
    refine Move.crlf_match (readsAlike_passWhile? (by decide)) hr _ _ _ fun _ => ?_
    exact scanNameless_crlf _ t

/-- Where no space is passed, the text does not begin with a line feed. -/
theorem ne_feed_of_space (hspace : passWhile? isSpace t = none) (u : Text) : t ≠ '\n' :: u := by
  rintro rfl
  simp [passWhile?, isSpace, isLineBreak] at hspace

theorem scanAttributeName?_crlf (t : Text) :
    m.scanAttributeName? (crlf t) = (m.scanAttributeName? t).map Move.crlf := by
  unfold scanAttributeName?
  rw [passWhile?_crlf (by decide +kernel)]
  split
  · cases hname : passWhile? inAttributeName t with
    | none => rfl
    | some rest =>
      obtain rfl := dropWhile_of_passWhile? hname
      dsimp only [Option.map_some]
      rw [before_crlf_dropWhile (by decide +kernel)]
      rfl
  · rfl

theorem scanStartTag_crlf (hr : '\r' ∉ t) :
    m.scanStartTag (crlf t) = (m.scanStartTag t).crlf := by
  unfold scanStartTag
  refine Move.crlf_match (readsAlike_passWhile? (by decide)) hr _ _ _ fun hspace => ?_
  split
  · next u heq =>
    obtain ⟨v, rfl, hv⟩ := crlf_eq_cons (by decide) heq
    obtain ⟨w, rfl, rfl⟩ := crlf_eq_cons (by decide) hv.symm
    rfl
  · next u heq =>
    obtain ⟨v, rfl, rfl⟩ := crlf_eq_cons (by decide) heq
    rfl
  · next u heq =>
    obtain ⟨v, rfl, rfl⟩ := crlf_eq_cons (by decide) heq
    rfl
  · next hslash hclose hangle =>
    split
    · exact absurd rfl (hslash _)
    · exact absurd rfl (hclose _)
    · exact absurd rfl (hangle _)
    · rw [scanAttributeName?_crlf, drop_one_crlf (ne_feed_of_space hspace)]
      cases m.scanAttributeName? t <;> rfl

theorem scanAttributeNamed_crlf (hr : '\r' ∉ t) :
    m.scanAttributeNamed (crlf t) = (m.scanAttributeNamed t).crlf := by
  unfold scanAttributeNamed
  refine Move.crlf_match (readsAlike_passWhile? (by decide)) hr _ _ _ fun _ => ?_
  split
  · next u heq =>
    obtain ⟨v, rfl, rfl⟩ := crlf_eq_cons (by decide) heq
    rfl
  · next hequals =>
    split
    · exact absurd rfl (hequals _)
    · rfl

theorem scanBeforeValue_crlf (hr : '\r' ∉ t) :
    m.scanBeforeValue (crlf t) = (m.scanBeforeValue t).crlf := by
  unfold scanBeforeValue
  refine Move.crlf_match (readsAlike_passWhile? (by decide)) hr _ _ _ fun _ => ?_
  split
  · next u heq =>
    obtain ⟨v, rfl, rfl⟩ := crlf_eq_cons (by decide) heq
    rfl
  · next u heq =>
    obtain ⟨v, rfl, rfl⟩ := crlf_eq_cons (by decide) heq
    rfl
  · next hdouble hsingle =>
    split
    · exact absurd rfl (hdouble _)
    · exact absurd rfl (hsingle _)
    · rfl

theorem atUnquotedEnd_cons (c : Char) (t : Text) :
    atUnquotedEnd (c :: t) = (c == '/' && t.head?.any (· == '>') || (isBlank c || c == '>')) := by
  rcases t with _ | ⟨d, t⟩
  · simp [atUnquotedEnd]
  · by_cases hslash : c = '/' <;> by_cases hclose : d = '>' <;>
      simp [atUnquotedEnd, hslash, hclose]

theorem neutral_atUnquotedEnd : Neutral atUnquotedEnd := by
  intro t _
  rcases t with _ | ⟨c, t⟩
  · rfl
  by_cases hfeed : c = '\n'
  · subst hfeed
    show (isBlank '\r' || '\r' == '>') = (isBlank '\n' || '\n' == '>')
    decide +kernel
  have hhead := head?_crlf_any (p := (· == '>')) (by decide) t
  rw [crlf_cons hfeed, atUnquotedEnd_cons, atUnquotedEnd_cons, hhead]

theorem scanUnquotedValue_crlf (hr : '\r' ∉ t) :
    m.scanUnquotedValue (crlf t) = (m.scanUnquotedValue t).crlf := by
  unfold scanUnquotedValue
  refine Move.crlf_match (readsAlike_passWhile? (by decide)) hr _ _ _ fun hspace => ?_
  split
  · next u heq =>
    obtain ⟨v, rfl, rfl⟩ := crlf_eq_cons (by decide) heq
    rfl
  · next u heq =>
    obtain ⟨v, rfl, hv⟩ := crlf_eq_cons (by decide) heq
    obtain ⟨w, rfl, rfl⟩ := crlf_eq_cons (by decide) hv.symm
    rfl
  · next hclose hslash =>
    split
    · exact absurd rfl (hclose _)
    · exact absurd rfl (hslash _)
    · have hfeed : isBlank '\n' = true := by decide +kernel
      rw [seek_crlf neutral_atUnquotedEnd (fun u _ h => ?_) hr]
      · rfl
      · simp [atUnquotedEnd, hfeed] at h

/-- The quotes that can stand around a value. -/
def Quoted (m : Memory) : Prop := ∀ mark, m.valueMark = some mark → mark = '"' ∨ mark = '\''

theorem neutral_atValueStop {mark : Char} (hmark : mark = '"' ∨ mark = '\'') :
    Neutral (atValueStop mark) := by
  intro t hr
  have hmustache := neutral_startsWith_mustacheOpening t hr
  rcases t with _ | ⟨c, t⟩
  · rfl
  by_cases hfeed : c = '\n'
  · subst hfeed
    rcases hmark with rfl | rfl <;> rfl
  · rw [crlf_cons hfeed] at hmustache ⊢
    rw [atValueStop, atValueStop, hmustache]

/-- Within a value the quote has not been reached. -/
theorem scanQuotedValue_inside {mark : Char} (ht : t ≠ []) (hmark : ∀ u, t ≠ mark :: u) :
    m.scanQuotedValue mark t =
      if m.inDirective then .plain .attributeValue ((skipUntil [mark] t).getD []) m
      else
        match strip? mustacheOpening t with
        | some rest => .plain .mustacheStart rest (m.enter .mustache)
        | none => .plain .attributeValue (seek (atValueStop mark) t) m := by
  cases t with
  | nil => exact absurd rfl ht
  | cons c t =>
    exact if_neg fun hc => hmark t (by rw [hc])

theorem scanQuotedValue_crlf {mark : Char} (hr : '\r' ∉ t) (hmark : mark = '"' ∨ mark = '\'')
    (steady : (m.scanQuotedValue mark t).Steady t) :
    m.scanQuotedValue mark (crlf t) = (m.scanQuotedValue mark t).crlf := by
  have hfeed : mark ≠ '\n' := by rcases hmark with rfl | rfl <;> decide
  have hreturn : mark ≠ '\r' := by rcases hmark with rfl | rfl <;> decide
  by_cases ht : t = []
  · subst ht
    rfl
  by_cases hclosing : ∃ u, t = mark :: u
  · obtain ⟨u, rfl⟩ := hclosing
    rw [crlf_cons hfeed, scanQuotedValue, scanQuotedValue, if_pos rfl, if_pos rfl]
    rfl
  have hinside (u : Text) : t ≠ mark :: u := fun heq => hclosing ⟨u, heq⟩
  rw [scanQuotedValue_inside ht hinside] at steady
  rw [scanQuotedValue_inside ht hinside,
    scanQuotedValue_inside (crlf_ne_nil ht) (crlf_ne_cons hreturn hinside)]
  by_cases hdirective : m.inDirective = true
  · rw [if_pos hdirective] at steady
    rw [if_pos hdirective, if_pos hdirective, skipUntil_crlf (by simpa using hfeed.symm)
      (by simpa using hreturn.symm) hr (steady.1 rfl), getD_map_crlf]
    rfl
  · rw [if_neg hdirective, if_neg hdirective]
    refine Move.crlf_match readsAlike_mustacheOpening hr _ _ _ fun _ => ?_
    rw [seek_crlf (neutral_atValueStop hmark) (fun u _ _ => ?_) hr]
    · rfl
    · rcases hmark with rfl | rfl <;> rfl

theorem scanValue_crlf (hr : '\r' ∉ t) (quoted : m.Quoted) (steady : (m.scanValue t).Steady t) :
    m.scanValue (crlf t) = (m.scanValue t).crlf := by
  unfold scanValue at steady ⊢
  cases hmark : m.valueMark with
  | none => exact scanUnquotedValue_crlf hr
  | some mark =>
    rw [hmark] at steady
    exact scanQuotedValue_crlf hr (quoted mark hmark) steady

theorem scanMustache_crlf (hr : '\r' ∉ t) (steady : (m.scanMustache t).Steady t) :
    m.scanMustache (crlf t) = (m.scanMustache t).crlf := by
  unfold scanMustache at steady ⊢
  rw [readsAlike_mustacheClosing t hr]
  cases hclosing : strip? mustacheClosing t with
  | some rest =>
    dsimp only [Option.map_some]
    rw [apply_ite Move.crlf]
    rfl
  | none =>
    rw [hclosing] at steady
    have hread : skipUntil mustacheClosing (crlf t) = (skipUntil mustacheClosing t).map crlf :=
      skipUntil_crlf (by decide) (by decide) hr (steady.1 rfl)
    have hrest : (skipUntil mustacheClosing t).getD [] <:+ t :=
      LeavesSuffix.getD (skipUntil_suffix mustacheClosing) t
    dsimp only [Option.map_none]
    rw [hread, getD_map_crlf, before_crlf hrest, isAllBlank, all_crlf (by decide +kernel)]
    rfl

theorem scanEndTagName_crlf (hr : '\r' ∉ t) :
    m.scanEndTagName (crlf t) = (m.scanEndTagName t).crlf := by
  unfold scanEndTagName
  refine Move.crlf_match readsAlike_passElementName? hr _ _ _ fun _ => ?_
  refine Move.crlf_match (readsAlike_passWhile? (by decide)) hr _ _ _ fun _ => ?_
  exact scanNameless_crlf _ t

theorem scanEndTag_crlf (hr : '\r' ∉ t) : m.scanEndTag (crlf t) = (m.scanEndTag t).crlf := by
  unfold scanEndTag
  refine Move.crlf_match (readsAlike_passWhile? (by decide)) hr _ _ _ fun hspace => ?_
  split
  · next u heq =>
    obtain ⟨v, rfl, rfl⟩ := crlf_eq_cons (by decide) heq
    rfl
  · next u heq =>
    obtain ⟨v, rfl, rfl⟩ := crlf_eq_cons (by decide) heq
    rfl
  · next hclose hangle =>
    split
    · exact absurd rfl (hclose _)
    · exact absurd rfl (hangle _)
    · rw [drop_one_crlf (ne_feed_of_space hspace)]
      rfl

theorem scanRawText_crlf (e : RawElement) (hr : '\r' ∉ t) (steady : (m.scanRawText e t).Steady t) :
    m.scanRawText e (crlf t) = (m.scanRawText e t).crlf := by
  have hs := e.skipBody_suffix t
  unfold scanRawText at steady ⊢
  dsimp only at steady ⊢
  by_cases hshorter : (e.skipBody t).length < t.length
  · rw [if_pos hshorter] at steady
    rw [e.skipBody_crlf hr (steady.1 rfl), if_pos hshorter,
      if_pos ((crlf_shorter_iff hs).2 hshorter)]
    rfl
  · have hall : e.skipBody t = t := hs.eq_of_length_le (Nat.le_of_not_lt hshorter)
    have hcalm : Calm t (e.skipBody t) := by
      rw [hall, Calm, before_self]
      rfl
    rw [e.skipBody_crlf hr hcalm, if_neg hshorter, if_neg (mt (crlf_shorter_iff hs).1 hshorter)]
    rfl

/-- **A step**, whatever the context. -/
theorem step_crlf (hr : '\r' ∉ t) (quoted : m.Quoted) (before : Option Char)
    (steady : (m.step dialect before t).Steady t) :
    m.step dialect before (crlf t) = (m.step dialect before t).crlf := by
  by_cases ht : t = []
  · subst ht
    rfl
  have hstep (u : Text) (hu : u ≠ []) :
      m.step dialect before u = m.stepWithin dialect before u := by
    cases u with
    | nil => exact absurd rfl hu
    | cons c u => rfl
  rw [hstep t ht] at steady
  rw [hstep t ht, hstep _ (crlf_ne_nil ht)]
  unfold stepWithin at steady ⊢
  cases hstate : m.state with
  | content =>
    simp only [hstate] at steady ⊢
    refine Move.crlf_match (readsAlike_passWhile? (by decide)) hr _ _ _ fun hspace => ?_
    rw [hspace] at steady
    refine Move.crlf_match readsAlike_commentOpening hr _ _ _ fun hcomment => ?_
    rw [hcomment] at steady
    have hfeed := ne_feed_of_space hspace
    cases dialect with
    | template => exact scanTemplate_crlf hr
    | markdown => exact scanLineStart_crlf hr hfeed steady
    | mdx => exact scanLineStart_crlf hr hfeed steady
  | inlineContent =>
    rw [hstate] at steady
    exact scanInline_crlf hr steady
  | comment => exact scanComment_crlf hr
  | fenceInfo => exact scanFenceInfo_crlf hr
  | fenceBody => exact scanFenceBody_crlf hr before
  | startTagName => exact scanStartTagName_crlf hr
  | startTag => exact scanStartTag_crlf hr
  | attributeNamed => exact scanAttributeNamed_crlf hr
  | beforeValue => exact scanBeforeValue_crlf hr
  | value =>
    rw [hstate] at steady
    exact scanValue_crlf hr quoted steady
  | mustache =>
    rw [hstate] at steady
    exact scanMustache_crlf hr steady
  | endTagName => exact scanEndTagName_crlf hr
  | endTag => exact scanEndTag_crlf hr
  | scriptBody =>
    rw [hstate] at steady
    exact scanRawText_crlf .script hr steady
  | styleBody =>
    rw [hstate] at steady
    exact scanRawText_crlf .style hr steady

end Memory

end HybridMarkup
