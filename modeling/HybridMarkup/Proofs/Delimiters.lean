/-
What stands between the name of a directive and its value.

The span of a name is not kept with the node; it is found again by looking for the first equals sign
in the source of the node. A name has no such sign in it, and behind the name there is space at most
until the sign that announces the value (`Announced`): this is what the scanner promises, by the
context in which it goes on behind a name (`NameStage`). So the search comes to the announcing sign
and to no other, however many there are in the value, and what is found is the name together with
the space behind it (`Tree.Announces.nameSpan_eq`).

Main statement: `Parse.announced_values`, for all texts that are read to their end.
-/
import HybridMarkup.Proofs.AttributeValues

set_option autoImplicit false

namespace HybridMarkup

open Text

/-! ## What the tokens are made of -/

theorem Text.passWhile?_eq_some {p : Char → Bool} {t rest : Text} (h : passWhile? p t = some rest) :
    ∃ part, t = part ++ rest ∧ part ≠ [] ∧ ∀ c ∈ part, p c = true := by
  cases t with
  | nil => simp [passWhile?] at h
  | cons c t =>
    by_cases hc : p c = true
    · obtain rfl : t.dropWhile p = rest := by simpa [passWhile?, hc] using h
      refine ⟨c :: t.takeWhile p, by simp, by simp, ?_⟩
      exact List.forall_mem_cons.2 ⟨hc, fun d hd => List.mem_takeWhile_imp hd⟩
    · simp [passWhile?, hc] at h

theorem Text.passLineBreak?_eq_some {t rest : Text} (h : passLineBreak? t = some rest) :
    ∃ part, t = part ++ rest ∧ part ≠ [] ∧ ∀ c ∈ part, isBlank c = true := by
  unfold passLineBreak? at h
  split at h
  · obtain rfl := Option.some.inj h
    have hspace : ∀ c ∈ ['\r', '\n'], isSpace c = true := by simp [isSpace, isLineBreak]
    exact ⟨['\r', '\n'], rfl, by simp, fun c hc => isBlank_of_isSpace (hspace c hc)⟩
  · next c t _ =>
    split at h
    · next hc =>
      obtain rfl := Option.some.inj h
      refine ⟨[c], rfl, by simp, fun d hd => ?_⟩
      rw [List.mem_singleton.1 hd]
      exact isBlank_of_isSpace (by simp [isSpace, hc])
    · simp at h
  · simp at h

/-- Where a text is cut at a character that its front does not have. -/
theorem Text.cutAt?_of_not_mem {c : Char} {a : Text} (ha : c ∉ a) (b : Text) :
    cutAt? c (a ++ c :: b) = some (a, b) := by
  induction a with
  | nil => simp [cutAt?]
  | cons d a ih =>
    obtain ⟨hd, ha⟩ := not_or.1 (mt List.mem_cons.2 ha)
    rw [List.cons_append, cutAt?, if_neg (Ne.symm hd), ih ha]
    rfl

/-- Names have no blanks and no equals sign. -/
theorem of_inAttributeName {c : Char} (h : inAttributeName c = true) :
    isBlank c = false ∧ c ≠ '=' := by
  unfold inAttributeName at h
  simp only [Bool.not_eq_true', Bool.or_eq_false_iff, beq_eq_false_iff_ne] at h
  exact ⟨h.1.1.1.1.1.1.1.1, h.1.1.2⟩

namespace Memory

variable {dialect : Dialect} {before : Option Char} {m m' : Memory} {u rest : Text}
  {kind : TokenKind} {error : Option LexError}

/-- Space is one blank at least, and blanks only. -/
theorem Yields.reads_space (h : m.Yields dialect before u kind error rest m')
    (hkind : kind = .whitespace) :
    ∃ part, u = part ++ rest ∧ part ≠ [] ∧ ∀ c ∈ part, isBlank c = true := by
  have hspace {p : Char → Bool} (hp : ∀ c, p c = true → isBlank c = true)
      (hread : passWhile? p u = some rest) :
      ∃ part, u = part ++ rest ∧ part ≠ [] ∧ ∀ c ∈ part, isBlank c = true := by
    obtain ⟨part, heq, hne, hpart⟩ := passWhile?_eq_some hread
    exact ⟨part, heq, hne, fun c hc => hp c (hpart c hc)⟩
  cases h with
  | space _ read | tagSpace _ read | valueSpace _ _ read | nameSpace _ read =>
    exact hspace (fun _ => isBlank_of_isSpace) read
  | fenceLineEnd _ read => exact passLineBreak?_eq_some read
  | fenceLineSpace _ read =>
    exact hspace (fun c hc => isBlank_of_isSpace (by simp [isSpace, hc])) read
  | _ => simp at hkind

theorem Yields.reads_name (h : m.Yields dialect before u kind error rest m')
    (hkind : kind = .attributeName ∨ kind = .directiveName) :
    ∃ part, u = part ++ rest ∧ ∀ c ∈ part, inAttributeName c = true := by
  cases h with
  | attributeName _ _ read _ | directiveName _ _ read _ =>
    obtain ⟨part, heq, _, hpart⟩ := passWhile?_eq_some read
    exact ⟨part, heq, hpart⟩
  | _ => simp at hkind

theorem Yields.reads_delimiter (h : m.Yields dialect before u kind error rest m')
    (hkind : kind = .attributeDelimiter) : u = '=' :: rest := by
  cases h with
  | attributeDelimiter _ read => exact read
  | _ => simp at hkind

end Memory

namespace Scanner

variable {dialect : Dialect} {text : Text} {t : Token}

/-- What a rule says of a token of the document, where it is not the end. -/
theorem exists_yields_of_mem (ht : t ∈ tokenize dialect text) (hkind : t.kind ≠ .eos) :
    ∃ (s : Scanner) (m m' : Memory) (rest : Text),
      m.Yields s.dialect s.before s.rest t.kind t.error rest m' ∧
        t.lexeme = Text.before s.rest rest := by
  obtain ⟨s, _, rfl⟩ := exists_of_mem_tokensIn (P := fun _ => True) (fun _ _ => trivial) trivial ht
  obtain ⟨m, rest, m', hyields, hlexeme⟩ := exists_yields hkind
  exact ⟨s, m, m', rest, hyields, hlexeme⟩

theorem lexeme_of_space (ht : t ∈ tokenize dialect text) (hkind : t.kind = .whitespace) :
    t.lexeme ≠ [] ∧ ∀ c ∈ t.lexeme, isBlank c = true := by
  obtain ⟨s, m, m', rest, hyields, hlexeme⟩ := exists_yields_of_mem ht (by simp [hkind])
  obtain ⟨part, hread, hne, hpart⟩ := hyields.reads_space hkind
  rw [hlexeme, hread, before_append]
  exact ⟨hne, hpart⟩

theorem lexeme_of_name (ht : t ∈ tokenize dialect text) (hname : t.attribute? ≠ none) :
    ∀ c ∈ t.lexeme, inAttributeName c = true := by
  have hkind := Token.kind_of_attribute? hname
  have heos : t.kind ≠ .eos := by rcases hkind with hkind | hkind <;> simp [hkind]
  obtain ⟨s, m, m', rest, hyields, hlexeme⟩ := exists_yields_of_mem ht heos
  obtain ⟨part, hread, hpart⟩ := hyields.reads_name hkind
  rw [hlexeme, hread, before_append]
  exact hpart

theorem lexeme_of_delimiter (ht : t ∈ tokenize dialect text)
    (hkind : t.kind = .attributeDelimiter) : t.lexeme = ['='] := by
  obtain ⟨s, m, m', rest, hyields, hlexeme⟩ := exists_yields_of_mem ht (by simp [hkind])
  rw [hlexeme, hyields.reads_delimiter hkind]
  exact before_append ['='] rest

end Scanner

/-! ## The announcement of a value -/

/-- Behind the name there is space at most, and then an equals sign. -/
def Announced (own : List Token) : Prop :=
  ∃ gap delimiter rest, own = gap ++ delimiter :: rest ∧ (∀ c ∈ gap, c.kind = .whitespace) ∧
    delimiter.kind = .attributeDelimiter

/-- How far the scanner with the memory `m` is behind the name of an attribute, if `own` has been
read since. -/
inductive NameStage (m : Memory) (own : List Token) : Prop where
  | waiting (state : m.state = .attributeNamed) (space : ∀ c ∈ own, c.kind = .whitespace)
  -- no value can be announced any more
  | valueless (state : m.state = .startTag)
      (stray : ∀ c ∈ own, c.kind = .whitespace ∨ c.kind = .unknown)
  | announced (sign : Announced own)

namespace NameStage

variable {m m' : Memory} {own : List Token} {t : Token} {u rest : Text} {dialect : Dialect}
  {before : Option Char} {kind : TokenKind} {error : Option LexError}

/-- There is no value that has not been announced. -/
theorem announced_of_pieces (h : NameStage m own) (hpieces : pieces own ≠ []) : Announced own := by
  have hnone (hother : ∀ c ∈ own, c.kind = .whitespace ∨ c.kind = .unknown) : pieces own = [] := by
    refine List.filter_eq_nil_iff.2 fun c hc => ?_
    rcases hother c hc with hkind | hkind <;> simp [hkind, TokenKind.inValue]
  cases h with
  | waiting _ space => exact absurd (hnone fun c hc => .inl (space c hc)) hpieces
  | valueless _ stray => exact absurd (hnone stray) hpieces
  | announced sign => exact sign

/-- The scanner turns to another context. -/
theorem turns (h : NameStage m own) (hturn : m.Turns u m') : NameStage m' own := by
  cases h with
  | waiting state space =>
    cases hturn with
    | noValue _ => exact .valueless rfl fun c hc => .inl (space c hc)
    | noBody other => rcases other with other | other <;> simp [state] at other
    | _ => simp_all
  | valueless state stray =>
    cases hturn with
    | noBody other => rcases other with other | other <;> simp [state] at other
    | _ => simp_all
  | announced sign => exact .announced sign

/-- **One token of an attribute** leads from one stage to another. -/
theorem yields (h : NameStage m own) (hy : m.Yields dialect before u kind error rest m')
    (hkind : t.kind = kind) (hgoes : kind.endsAttribute = false) : NameStage m' (own ++ [t]) := by
  cases h with
  | waiting state space =>
    rcases hy.of_attributeNamed state with ⟨rfl, rfl⟩ | ⟨rfl, rfl⟩
    · refine .waiting state fun c hc => ?_
      rcases List.mem_append.1 hc with hc | hc
      · exact space c hc
      · rw [List.mem_singleton.1 hc, hkind]
    · exact .announced ⟨own, t, [], rfl, space, hkind⟩
  | valueless state stray =>
    have hstray (hother : t.kind = .whitespace ∨ t.kind = .unknown) :
        ∀ c ∈ own ++ [t], c.kind = .whitespace ∨ c.kind = .unknown := by
      intro c hc
      rcases List.mem_append.1 hc with hc | hc
      · exact stray c hc
      · rw [List.mem_singleton.1 hc]
        exact hother
    rcases hy.of_startTag state hgoes with ⟨rfl, rfl⟩ | ⟨rfl, rfl⟩
    · exact .valueless state (hstray (.inl hkind))
    · exact .valueless state (hstray (.inr hkind))
  | announced sign =>
    obtain ⟨gap, delimiter, more, rfl, hgap, hdelimiter⟩ := sign
    exact .announced ⟨gap, delimiter, more ++ [t], by simp, hgap, hdelimiter⟩

/-- What the scanner remembers of the last token is no matter. -/
theorem remember (h : NameStage m own) (last : Option TokenKind) :
    NameStage { m with lastKind := last } own := by
  cases h with
  | waiting state space => exact .waiting state space
  | valueless state stray => exact .valueless state stray
  | announced sign => exact .announced sign

end NameStage

namespace Scanner

variable {s : Scanner} {ts own behind : List Token} {name : Token} {dialect : Dialect} {text : Text}

/-- Every value is announced, and the scanner is in one of the stages if an attribute is read. -/
def ValuesAnnounced (s : Scanner) (ts : List Token) : Prop :=
  ∀ name own after, Stretch TokenKind.endsAttribute ts name own after → name.attribute? ≠ none →
    (pieces own ≠ [] → Announced own) ∧ (after = [] → NameStage s.memory own)

theorem valuesAnnounced_nil (s : Scanner) : s.ValuesAnnounced [] := by
  intro name own after h
  obtain ⟨front, hsplit⟩ := h.split
  simp at hsplit

/-- What a name leads to. -/
theorem nameStage_of_name (hname : s.scan.1.attribute? ≠ none) :
    NameStage s.scan.2.memory [] := by
  have hkind := Token.kind_of_attribute? hname
  have hrest : s.rest ≠ [] := by
    intro hnil
    have heos := (s.scan_kind_eq_eos_iff).2 hnil
    rcases hkind with hkind | hkind <;> simp [hkind] at heos
  obtain ⟨m, kind, error, rest, m', _, hyields, hscan⟩ := scan_before_end hrest
  rw [hscan] at hkind ⊢
  exact (NameStage.waiting (hyields.of_name hkind).1 (by simp)).remember _

/-- What is read on behind a name. -/
theorem nameStage_scan (h : NameStage s.memory own)
    (hgoes : s.scan.1.kind.endsAttribute = false) :
    NameStage s.scan.2.memory (own ++ [s.scan.1]) := by
  have hrest : s.rest ≠ [] := by
    intro hnil
    simp [(s.scan_kind_eq_eos_iff).2 hnil, TokenKind.endsAttribute] at hgoes
  obtain ⟨m, kind, error, rest, m', hturns, hyields, hscan⟩ := scan_before_end hrest
  have hstage : NameStage m own :=
    hturns.keeps (P := fun m => NameStage m own) (fun _ _ h hturn => h.turns hturn) h
  have hkind : s.scan.1.kind = kind := by rw [hscan]; rfl
  have hmemory : s.scan.2.memory = { m' with lastKind := some kind } := by rw [hscan]; rfl
  rw [hmemory]
  exact (hstage.yields hyields hkind (hkind ▸ hgoes)).remember _

/-- **One token.** -/
theorem valuesAnnounced_scan (h : s.ValuesAnnounced ts) :
    s.scan.2.ValuesAnnounced (ts ++ [s.scan.1]) := by
  intro name own after hstretch hname
  rcases hstretch.snoc_cases with ⟨rfl, rfl, rfl⟩ | ⟨own', rfl, rfl, hold, hgoes⟩ |
    ⟨after', rfl, hold⟩
  · exact ⟨fun hpieces => absurd rfl hpieces, fun _ => nameStage_of_name hname⟩
  · have hnext := nameStage_scan ((h name own' [] hold hname).2 rfl) hgoes
    exact ⟨hnext.announced_of_pieces, fun _ => hnext⟩
  · exact ⟨(h name own after' hold hname).1, fun hnil => by simp at hnil⟩

/-- **All tokens.** -/
theorem valuesAnnounced_tokensIn (fuel : Nat) (h : s.ValuesAnnounced ts) :
    ∃ s' : Scanner, s'.ValuesAnnounced (ts ++ s.tokensIn fuel) := by
  induction fuel generalizing s ts with
  | zero => exact ⟨s, by simpa [tokensIn] using h⟩
  | succ fuel ih =>
    have hnext := valuesAnnounced_scan h
    unfold tokensIn
    dsimp only
    split
    · exact ⟨_, hnext⟩
    · obtain ⟨s', hs'⟩ := ih hnext
      exact ⟨s', by simpa using hs'⟩

/-- In every attribute of a document the value is announced. -/
theorem announced_of_tokenize
    (h : Stretch TokenKind.endsAttribute (tokenize dialect text) name own behind)
    (hname : name.attribute? ≠ none) (hpieces : pieces own ≠ []) : Announced own := by
  obtain ⟨s', hs'⟩ := valuesAnnounced_tokensIn (tokenLimit text)
    (valuesAnnounced_nil (start dialect text))
  exact (hs' name own behind h hname).1 hpieces

end Scanner

/-! ## Where the name ends -/

namespace Tiles

variable {text : Text} {ts us vs : List Token} {t : Token} {start : Nat}

theorem drop (h : Tiles text start (us ++ vs)) : ∃ start', Tiles text start' vs := by
  induction us generalizing start with
  | nil => exact ⟨start, h⟩
  | cons u us ih => exact ih h.2.2.2.2.2

/-- What stands in front of a token is what the tokens in front of it carry. -/
theorem slice_front (h : Tiles text start (us ++ t :: vs)) :
    (⟨start, t.span.start⟩ : Span).Cuts text ∧
      slice text ⟨start, t.span.start⟩ = (us.map Token.lexeme).flatten := by
  induction us generalizing start with
  | nil =>
    obtain ⟨rfl, _, hboundary, _⟩ := h
    exact ⟨Span.cuts_empty hboundary, Span.slice_empty _ _⟩
  | cons u us ih =>
    obtain ⟨rfl, hordered, hstart, hstop, hlexeme, hrest⟩ := h
    obtain ⟨hcuts, hslice⟩ := ih hrest
    have hu : u.span.Cuts text := ⟨hordered, hstart, hstop⟩
    refine ⟨⟨Nat.le_trans hordered hcuts.ordered, hstart, hcuts.stop⟩, ?_⟩
    rw [hu.slice_append hcuts rfl, hslice, ← hlexeme]
    rfl

end Tiles

/-- The value of an attribute is announced: behind the name there is the `gap`, which is space, and
then an equals sign. -/
structure Tree.Announces (t : Tree) (ts : List Token) (i : Nat) (name : Token) (gap : List Token)
    (delimiter : Token) (own behind : List Token) : Prop
    extends Tree.AttributeTokens t ts i name (gap ++ delimiter :: own) behind where
  spaces : ∀ c ∈ gap, c.kind = .whitespace
  sign : delimiter.kind = .attributeDelimiter

namespace Tree.Announces

variable {text : Text} {dialect : Dialect} {tree : Tree} {i : Nat} {name delimiter : Token}
  {gap own behind : List Token}

/-- The source from the name to the sign, and the sign. -/
theorem slice_name (hend : Scanner.ReachesEnd dialect text)
    (h : tree.Announces (tokenize dialect text) i name gap delimiter own behind) :
    (⟨name.span.start, delimiter.span.start⟩ : Span).Cuts text ∧
      slice text ⟨name.span.start, delimiter.span.start⟩
        = name.lexeme ++ (gap.map Token.lexeme).flatten ∧
      delimiter.span.Cuts text ∧ slice text delimiter.span = ['='] := by
  obtain ⟨n, htokens, _⟩ := hend.listsAll
  obtain ⟨front, hsplit⟩ := h.split
  have hmem : delimiter ∈ tokenize dialect text := by
    rw [hsplit]
    simp
  have htiles := (Scanner.start_within dialect text).tiles (n + 1)
  have hparts : (Scanner.start dialect text).tokens (n + 1)
      = front ++ ((name :: gap) ++ delimiter :: (own ++ behind)) := by
    rw [← htokens, hsplit]
    simp
  rw [hparts] at htiles
  obtain ⟨start, htiles⟩ := htiles.drop
  obtain rfl : name.span.start = start := htiles.1
  obtain ⟨hcuts, hslice⟩ := htiles.slice_front
  obtain ⟨_, _, hordered, hstart, hstop, hlexeme, _⟩ := htiles.drop
  refine ⟨hcuts, hslice, ⟨hordered, hstart, hstop⟩, ?_⟩
  rw [← hlexeme, Scanner.lexeme_of_delimiter hmem h.sign]

/-- The tokens of the announcement are tokens of the document. -/
theorem mem_tokens {ts : List Token} (h : tree.Announces ts i name gap delimiter own behind) :
    name ∈ ts ∧ ∀ c ∈ gap, c ∈ ts := by
  obtain ⟨front, hsplit⟩ := h.split
  rw [hsplit]
  refine ⟨by simp, fun c hc => ?_⟩
  simp [hc]

/-- In front of the sign there is no other. -/
theorem not_mem_name (hname : name.attribute? ≠ none)
    (h : tree.Announces (tokenize dialect text) i name gap delimiter own behind) :
    '=' ∉ name.lexeme ++ (gap.map Token.lexeme).flatten := by
  obtain ⟨hmem, hgap⟩ := h.mem_tokens
  intro hsign
  rcases List.mem_append.1 hsign with hsign | hsign
  · exact (of_inAttributeName (Scanner.lexeme_of_name hmem hname _ hsign)).2 rfl
  · obtain ⟨_, hlexeme, hsign⟩ := List.mem_flatten.1 hsign
    obtain ⟨c, hc, rfl⟩ := List.mem_map.1 hlexeme
    have hblank := (Scanner.lexeme_of_space (hgap c hc) (h.spaces c hc)).2 _ hsign
    exact absurd hblank (by decide)

/-- There are blanks in front of the sign just if there is a gap. -/
theorem blank_iff (hname : name.attribute? ≠ none)
    (h : tree.Announces (tokenize dialect text) i name gap delimiter own behind) :
    (∃ c ∈ name.lexeme ++ (gap.map Token.lexeme).flatten, isBlank c = true) ↔ gap ≠ [] := by
  obtain ⟨hmem, hgap⟩ := h.mem_tokens
  constructor
  · rintro ⟨c, hc, hblank⟩ rfl
    rw [List.map_nil, List.flatten_nil, List.append_nil] at hc
    have hother := (of_inAttributeName (Scanner.lexeme_of_name hmem hname c hc)).1
    rw [hblank] at hother
    exact absurd hother (by decide)
  · intro hne
    obtain ⟨g, hg⟩ := List.exists_mem_of_ne_nil gap hne
    obtain ⟨hfilled, hblank⟩ := Scanner.lexeme_of_space (hgap g hg) (h.spaces g hg)
    obtain ⟨c, hc⟩ := List.exists_mem_of_ne_nil g.lexeme hfilled
    refine ⟨c, List.mem_append_right _ ?_, hblank c hc⟩
    exact List.mem_flatten.2 ⟨g.lexeme, List.mem_map_of_mem hg, hc⟩

/-- What stands in front of the sign is the name alone just if there is no gap. -/
theorem name_span_iff (hend : Scanner.ReachesEnd dialect text)
    (h : tree.Announces (tokenize dialect text) i name gap delimiter own behind) :
    (⟨name.span.start, delimiter.span.start⟩ : Span) = name.span ↔ gap = [] := by
  obtain ⟨hmem, hgap⟩ := h.mem_tokens
  obtain ⟨hcuts, hslice, _⟩ := h.slice_name hend
  obtain ⟨s, hs, hscan⟩ := Scanner.exists_of_mem_tokensIn (fun s h => Scanner.Within.scan h)
    (Scanner.start_within dialect text) hmem
  have hreads := hs.reads
  rw [hscan] at hreads
  constructor
  · intro heq
    rw [heq, ← hreads.lexeme] at hslice
    have hnone := List.self_eq_append_right.1 hslice
    refine List.eq_nil_iff_forall_not_mem.2 fun g hg => ?_
    exact (Scanner.lexeme_of_space (hgap g hg) (h.spaces g hg)).1
      (List.flatten_eq_nil_iff.1 hnone _ (List.mem_map_of_mem hg))
  · rintro rfl
    have hsize := hcuts.size_slice
    have hown := hreads.cuts.size_slice
    rw [hslice, List.map_nil, List.flatten_nil, List.append_nil, hreads.lexeme, hown] at hsize
    have hordered := hcuts.ordered
    have hordered' := hreads.cuts.ordered
    simp only [Span.length] at hsize hordered
    have hstop : delimiter.span.start = name.span.stop := by omega
    rw [hstop]

/-- The node begins with the name. -/
theorem span_start {ts : List Token} (hname : name.attribute? ≠ none)
    (h : tree.Announces ts i name gap delimiter own behind) :
    (tree.span i).start = name.span.start := by
  obtain ⟨a, ha⟩ := Option.ne_none_iff_exists'.1 hname
  obtain ⟨data, _, heq⟩ := Option.map_eq_some_iff.1 (h.named.symm.trans ha)
  rw [← (Token.bare_of_attribute? ha).2, ← heq]

/-- **The span of the name** goes up to the sign, if the node does. -/
theorem nameSpan_eq (hend : Scanner.ReachesEnd dialect text) (htext : tree.text = text)
    (hname : name.attribute? ≠ none)
    (h : tree.Announces (tokenize dialect text) i name gap delimiter own behind)
    (hcuts : (tree.span i).Cuts text) (hstop : delimiter.span.stop ≤ (tree.span i).stop) :
    TemplateArtifact.nameSpan tree i = ⟨name.span.start, delimiter.span.start⟩ := by
  obtain ⟨hfront, hslice, hsign, hsignSlice⟩ := h.slice_name hend
  have hstart := h.span_start hname
  have hboth : (⟨name.span.start, delimiter.span.stop⟩ : Span).Cuts text :=
    ⟨Nat.le_trans hfront.ordered hsign.ordered, hfront.start, hsign.stop⟩
  have hback : (⟨delimiter.span.stop, (tree.span i).stop⟩ : Span).Cuts text :=
    ⟨hstop, hsign.stop, hcuts.stop⟩
  have hsource : tree.nodeText i = (name.lexeme ++ (gap.map Token.lexeme).flatten) ++
      '=' :: slice text ⟨delimiter.span.stop, (tree.span i).stop⟩ := by
    have hspan : tree.span i = ⟨name.span.start, (tree.span i).stop⟩ := by rw [← hstart]
    rw [Tree.nodeText, htext, hspan, hboth.slice_append hback rfl, hfront.slice_append hsign rfl,
      hslice, hsignSlice, List.append_assoc]
    rfl
  have hsize := hfront.size_slice
  rw [hslice, Span.length] at hsize
  have hordered : name.span.start ≤ delimiter.span.start := hfront.ordered
  rw [TemplateArtifact.nameSpan, hsource, cutAt?_of_not_mem (h.not_mem_name hname)]
  simp only [Option.map_some, Option.getD_some, Span.ofLength, hstart, hsize, Span.mk.injEq,
    true_and]
  omega

/-- What is read behind the sign stands behind it. -/
theorem stop_le_start (h : tree.Announces (tokenize dialect text) i name gap delimiter own behind)
    {x : Token} (hx : x ∈ own) : delimiter.span.stop ≤ x.span.start := by
  obtain ⟨front, hsplit⟩ := h.split
  have hordered := (Scanner.tokensIn_ordered (tokenLimit text) (Scanner.start dialect text)).2
  have hparts : (Scanner.start dialect text).tokensIn (tokenLimit text)
      = (front ++ name :: gap) ++ delimiter :: (own ++ behind) := by
    refine Eq.trans hsplit ?_
    simp
  rw [hparts] at hordered
  have hbehind := (List.pairwise_append.1 hordered).2.1
  exact (List.pairwise_cons.1 hbehind).1 x (List.mem_append_left _ hx)

end Tree.Announces

theorem Tree.exists_directive {t : Tree} {i : Nat} (h : t.kind i = .directive) :
    ∃ d, t.data i = .directive d := by
  cases hdata : t.data i <;> simp [Tree.kind, hdata, NodeData.kind] at h
  exact ⟨_, rfl⟩

/-- The node of a directive goes up to the end of its value at least. -/
theorem Parse.value_within (options : ParseOptions) (text : Text) {i : Nat} {valueSpan : Span}
    (hkind : (ofText options text).tree.kind i = .directive)
    (hvalue : ((ofText options text).tree.data i).valueSpan? = some valueSpan) :
    valueSpan.start ≤ valueSpan.stop ∧
      valueSpan.stop ≤ ((ofText options text).tree.span i).stop := by
  obtain ⟨d, hdata⟩ := Tree.exists_directive hkind
  have hagrees : ((ofText options text).tree.data i).Agrees text
      ((ofText options text).tree.span i) := data_agrees options text i
  rw [hdata] at hagrees hvalue
  obtain ⟨hcuts, hincludes⟩ := hagrees.2 _ hvalue
  simp only [Span.includes, Bool.and_eq_true, decide_eq_true_eq] at hincludes
  exact ⟨hcuts.ordered, hincludes.2⟩

/-- **The value of a directive is announced.** Let the scanner come to the end of the text. Behind the
name of a directive with a value there is space at most, then an equals sign, and the value behind it;
and the span of the name goes from the name up to this sign. -/
theorem Parse.announced_values (options : ParseOptions) (text : Text)
    (hend : Scanner.ReachesEnd options.dialect text) {i : Nat} {valueSpan : Span} :
    let tree := (ofText options text).tree
    tree.kind i = .directive → (tree.data i).valueSpan? = some valueSpan →
      ∃ name gap delimiter own behind, name.kind = .directiveName ∧
        tree.Announces (tokenize options.dialect text) i name gap delimiter own behind ∧
        TemplateArtifact.nameSpan tree i = ⟨name.span.start, delimiter.span.start⟩ ∧
        delimiter.span.stop ≤ valueSpan.start := by
  intro tree hkind hvalue
  obtain ⟨d, hdata⟩ := Tree.exists_directive hkind
  have hi : (tree.data i).attribute? ≠ none := by
    rw [hdata]
    exact Option.some_ne_none _
  obtain ⟨name, own, behind, htokens, hvalueOf⟩ := attribute_values options text hend i hi
  have hname : name.attribute? ≠ none := by
    rw [htokens.named]
    simpa using hi
  have hpieces : pieces own ≠ [] := fun hnone =>
    Option.some_ne_none _ (hvalue.symm.trans (hvalueOf.bare hnone).2)
  obtain ⟨x, hx⟩ := List.exists_mem_of_ne_nil _ hpieces
  obtain ⟨_, hxkind, hxspan, _⟩ := hvalueOf.directive hkind x hx
  obtain rfl : x.span = valueSpan := Option.some.inj (hxspan.symm.trans hvalue)
  obtain ⟨gap, delimiter, rest, rfl, hgap, hdelimiter⟩ :=
    Scanner.announced_of_tokenize htokens.toStretch hname hpieces
  have hannounces : tree.Announces (tokenize options.dialect text) i name gap delimiter rest
      behind := ⟨htokens, hgap, hdelimiter⟩
  -- neither the gap nor the sign is a piece of the value
  have hxrest : x ∈ rest := by
    rcases List.mem_append.1 (List.mem_filter.1 hx).1 with hmem | hmem
    · simp [hgap x hmem] at hxkind
    · refine (List.mem_cons.1 hmem).resolve_left ?_
      rintro rfl
      simp [hdelimiter] at hxkind
  have hbehind := hannounces.stop_le_start hxrest
  obtain ⟨hordered, hstop⟩ := value_within options text hkind hvalue
  have hdirective : name.kind = .directiveName := by
    have hsame := htokens.isDirective hi
    rw [show (tree.data i).kind = _ from hkind] at hsame
    exact beq_iff_eq.1 hsame
  refine ⟨name, gap, delimiter, rest, behind, hdirective, hannounces, ?_, hbehind⟩
  exact hannounces.nameSpan_eq hend (draft_laid options.dialect text).1.text_eq hname
    ((payloads_agree options text).spans i)
    (Nat.le_trans hbehind (Nat.le_trans hordered hstop))

end HybridMarkup
