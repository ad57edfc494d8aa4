/-
The tokens of a value.

The tokens behind the name of an attribute, up to the next name or the end of the start tag, say all
there is to know of its value. What they cover of the text is said by them alone (`extent`): a value
goes from its first token to its last one, where a mustache counts as one piece, and only when it is
closed.

While an attribute is read the scanner is in one of five stages (`ValueStage`): no value has begun,
or one without quotes has been read, or one with quotes is read, or a mustache in it, or the value
has ended. Every token leads from one stage to another, and in each of them the tokens are in order
(`Settled`): without quotes there is one token at most, between two quotes the value is all that
stands there, and the value of a directive is in one piece.

A value without quotes would have more tokens if it stood still, which is why the end of the text is
to be reached. Main statement: `Scanner.valuesSettled_scan`.
-/
import HybridMarkup.Proofs.AttributeNodes

set_option autoImplicit false

namespace HybridMarkup

open Text

/-- The tokens that end an attribute: the next name, or the end of the start tag. -/
def TokenKind.endsAttribute : TokenKind → Bool
  | attributeName | directiveName | startTagClose | startTagSelfClose | eos => true
  | _ => false

/-- The tokens that values consist of. -/
def TokenKind.inValue : TokenKind → Bool
  | attributeValue | mustacheStart | mustacheContent | mustacheEnd => true
  | _ => false

/-- The tokens that attributes consist of, but for their names. -/
def TokenKind.inAttribute : TokenKind → Bool
  | whitespace | unknown | attributeDelimiter | attributeMark => true
  | kind => kind.inValue

/-- The quotes among the tokens. -/
def quotes (ts : List Token) : List Token := ts.filter fun t => t.kind == .attributeMark

/-- The tokens of a value among the tokens. -/
def pieces (ts : List Token) : List Token := ts.filter fun t => t.kind.inValue

/-! ## What a value covers -/

namespace Span

/-- The span, together with an earlier one if there is one. -/
def widen (old : Option Span) (span : Span) : Span := (old.map (·.cover span)).getD span

/-- What lies between two places, unless they are the same. -/
def between (start stop : Nat) : Option Span := if start = stop then none else some ⟨start, stop⟩

theorem between_self (start : Nat) : between start start = none := if_pos rfl

theorem widen_between {start middle stop : Nat} (hle : start ≤ middle) (hlt : middle < stop) :
    some (widen (between start middle) ⟨middle, stop⟩) = between start stop := by
  have hne : start ≠ stop := by omega
  unfold between
  rw [if_neg hne]
  by_cases heq : start = middle
  · subst heq
    rw [if_pos rfl]
    rfl
  · rw [if_neg heq]
    simp only [widen, Option.map_some, Option.getD_some, cover, Option.some.injEq, mk.injEq]
    omega

end Span

/-- How far a value has been read: what is known to be covered by it, and where the mustache begins
that is still open. -/
structure ValueExtent where
  span : Option Span := none
  opened : Option Nat := none
deriving DecidableEq

/-- One more token. -/
def ValueExtent.take (x : ValueExtent) (t : Token) : ValueExtent :=
  match t.kind, x.opened with
  | .attributeValue, _ => { x with span := some (Span.widen x.span t.span) }
  | .mustacheStart, _ => { x with opened := some t.span.start }
  | .mustacheEnd, some start =>
    { span := some (Span.widen x.span ⟨start, t.span.stop⟩), opened := none }
  | _, _ => x

/-- How far the tokens lead in a value. -/
def extent (ts : List Token) : ValueExtent := ts.foldl ValueExtent.take {}

section Extent

variable {ts : List Token} {t x : Token}

theorem extent_snoc (ts : List Token) (t : Token) : extent (ts ++ [t]) = (extent ts).take t := by
  rw [extent, List.foldl_append]
  rfl

/-- What is no part of a value is no matter. -/
theorem ValueExtent.take_of_other (x : ValueExtent) (h : t.kind.inValue = false) :
    x.take t = x := by
  unfold take
  split <;> simp_all [TokenKind.inValue]

theorem pieces_snoc (ts : List Token) (t : Token) :
    pieces (ts ++ [t]) = pieces ts ++ if t.kind.inValue then [t] else [] := by
  rw [pieces, List.filter_append, List.filter_singleton, ← pieces]
  cases t.kind.inValue <;> rfl

theorem quotes_snoc (ts : List Token) (t : Token) :
    quotes (ts ++ [t]) = quotes ts ++ if t.kind = .attributeMark then [t] else [] := by
  rw [quotes, List.filter_append, List.filter_singleton]
  by_cases ht : t.kind = .attributeMark
  · simp [ht, quotes]
  · simp [ht, quotes, beq_eq_false_iff_ne.2 ht]

theorem pieces_snoc_of_other (ts : List Token) (h : t.kind.inValue = false) :
    pieces (ts ++ [t]) = pieces ts := by
  rw [pieces_snoc, h]
  exact List.append_nil _

theorem quotes_snoc_of_other (ts : List Token) (h : t.kind ≠ .attributeMark) :
    quotes (ts ++ [t]) = quotes ts := by
  rw [quotes_snoc, if_neg h, List.append_nil]

theorem extent_pieces (ts : List Token) : extent (pieces ts) = extent ts := by
  induction ts using List.reverseRecOn with
  | nil => rfl
  | append_singleton ts t ih =>
    rw [extent_snoc, ← ih]
    by_cases ht : t.kind.inValue = true
    · rw [pieces_snoc, if_pos ht]
      exact extent_snoc _ _
    · have hother := Bool.eq_false_iff.2 ht
      rw [pieces_snoc_of_other ts hother, ValueExtent.take_of_other _ hother]

/-- There is one token in the value at most. -/
def Whole (ts : List Token) : Prop :=
  pieces ts = [] ∨ ∃ x, pieces ts = [x] ∧ x.kind = .attributeValue

theorem extent_of_none (h : pieces ts = []) : extent ts = {} := by
  rw [← extent_pieces, h]
  rfl

theorem extent_of_single (h : pieces ts = [x]) (hx : x.kind = .attributeValue) :
    extent ts = { span := some x.span } := by
  rw [← extent_pieces, h]
  simp [extent, ValueExtent.take, hx, Span.widen]

end Extent

/-- The tokens of an attribute are in order. -/
structure Settled (directive : Bool) (own : List Token) : Prop where
  few : (quotes own).length ≤ 2
  /-- Without quotes there is one token at most. -/
  unquoted : quotes own = [] → Whole own
  /-- Between two quotes the value is all that stands there. -/
  quoted : ∀ o c, quotes own = [o, c] →
    (extent own).span = Span.between o.span.stop c.span.start
  /-- The value of a directive is in one piece. -/
  directive : directive = true → Whole own

/-- What is no quote and no part of a value changes nothing. -/
theorem Settled.other {directive : Bool} {own : List Token} {t : Token} (h : Settled directive own)
    (hquote : t.kind ≠ .attributeMark) (hvalue : t.kind.inValue = false) :
    Settled directive (own ++ [t]) := by
  have hquotes := quotes_snoc_of_other own hquote
  have hpieces := pieces_snoc_of_other own hvalue
  have hwhole : Whole own → Whole (own ++ [t]) := by
    unfold Whole
    rw [hpieces]
    exact id
  refine ⟨hquotes ▸ h.few, fun hnone => hwhole (h.unquoted (hquotes ▸ hnone)),
    fun o c hboth => ?_, fun hd => hwhole (h.directive hd)⟩
  rw [extent_snoc, ValueExtent.take_of_other _ hvalue]
  exact h.quoted o c (hquotes ▸ hboth)

/-! ## What is read of a value -/

namespace Memory

variable {m m' : Memory} {u rest : Text} {dialect : Dialect} {before : Option Char}
  {kind : TokenKind} {error : Option LexError}

/-- Behind the name of an attribute. -/
theorem Yields.of_attributeNamed (h : m.Yields dialect before u kind error rest m')
    (state : m.state = .attributeNamed) :
    kind = .whitespace ∧ m' = { m with spaceAfterTag := true } ∨
      kind = .attributeDelimiter ∧ m' = m.goto .beforeValue := by
  cases h with
  | tagSpace _ _ => exact .inl ⟨rfl, rfl⟩
  | attributeDelimiter _ _ => exact .inr ⟨rfl, rfl⟩
  | rawText e other _ _ => cases e <;> simp [state] at other
  | _ => simp_all

/-- Behind the equals sign. -/
theorem Yields.of_beforeValue (h : m.Yields dialect before u kind error rest m')
    (state : m.state = .beforeValue) :
    kind = .whitespace ∧ m' = m ∨
      kind = .attributeMark ∧ ∃ mark, m' = { m with valueMark := some mark, state := .value } := by
  cases h with
  | space _ _ => exact .inl ⟨rfl, rfl⟩
  | openingMark _ _ _ => exact .inr ⟨rfl, _, rfl⟩
  | rawText e other _ _ => cases e <;> simp [state] at other
  | _ => simp_all

/-- In a value without quotes. Where such a value ends nothing more is read of it. -/
theorem Yields.of_unquoted (h : m.Yields dialect before u kind error rest m')
    (state : m.state = .value) (noMark : m.valueMark = none) :
    kind = .whitespace ∧ m' = { m with spaceAfterTag := true, state := .startTag } ∨
      kind = .attributeValue ∧ m' = m ∧ (rest = [] ∨ atUnquotedEnd rest = true) ∧
        (atUnquotedEnd u = true → rest = u) := by
  cases h with
  | valueSpace _ _ _ => exact .inl ⟨rfl, rfl⟩
  | unquotedValue _ _ here _ _ _ =>
    refine .inr ⟨rfl, rfl, ?_, fun hstop => ?_⟩
    · by_cases hnil : seek atUnquotedEnd u = []
      · exact .inl hnil
      · exact .inr (seek_stops hnil)
    · rw [here] at hstop ⊢
      simp [seek, hstop]
  | rawText e other _ _ => cases e <;> simp [state] at other
  | _ => simp_all

/-- In a value with quotes. That of a directive is read in one piece. -/
theorem Yields.of_quoted {mark : Char} (h : m.Yields dialect before u kind error rest m')
    (state : m.state = .value) (marked : m.valueMark = some mark) :
    kind = .attributeMark ∧ m' = { m with spaceAfterTag := false, state := .startTag } ∨
      kind = .attributeValue ∧ m' = m ∧ (m.inDirective = true →
        startsWith [mark] u = false ∧ (rest = [] ∨ startsWith [mark] rest = true)) ∨
      kind = .mustacheStart ∧ m.inDirective = false ∧ m' = m.enter .mustache := by
  cases h with
  | closingMark _ _ _ => exact .inl ⟨rfl, rfl⟩
  | directiveValue _ quoted _ here =>
    obtain rfl := Option.some.inj (marked.symm.trans quoted)
    exact .inr (.inl ⟨rfl, rfl, fun _ => ⟨here, TemplateArtifact.skipUntil_ends [mark] u⟩⟩)
  | quotedValue _ _ plain _ =>
    exact .inr (.inl ⟨rfl, rfl, fun hdirective => by simp [plain] at hdirective⟩)
  | valueMustache _ _ plain _ => exact .inr (.inr ⟨rfl, plain, rfl⟩)
  | rawText e other _ _ => cases e <;> simp [state] at other
  | _ => simp_all

/-- In a mustache. -/
theorem Yields.of_mustache (h : m.Yields dialect before u kind error rest m')
    (state : m.state = .mustache) :
    kind = .mustacheContent ∧ (∃ blank, m' = { m with blankMustache := blank }) ∨
      kind = .mustacheEnd ∧ m' = m.leave := by
  cases h with
  | mustacheContent _ _ => exact .inl ⟨rfl, _, rfl⟩
  | mustacheEnd _ _ => exact .inr ⟨rfl, rfl⟩
  | rawText e other _ _ => cases e <;> simp [state] at other
  | _ => simp_all

/-- Between the attributes of a start tag. -/
theorem Yields.of_startTag (h : m.Yields dialect before u kind error rest m')
    (state : m.state = .startTag) (hgoes : kind.endsAttribute = false) :
    kind = .whitespace ∧ m' = { m with spaceAfterTag := true } ∨ kind = .unknown ∧ m' = m := by
  cases h with
  | tagSpace _ _ => exact .inl ⟨rfl, rfl⟩
  | strayInStartTag _ _ => exact .inr ⟨rfl, rfl⟩
  | rawText e other _ _ => cases e <;> simp [state] at other
  | _ => simp_all [TokenKind.endsAttribute]

/-- A name leads behind itself. -/
theorem Yields.of_name (h : m.Yields dialect before u kind error rest m')
    (hkind : kind = .attributeName ∨ kind = .directiveName) :
    m'.state = .attributeNamed ∧ m'.inDirective = (kind == .directiveName) := by
  cases h with
  | attributeName _ _ _ _ | directiveName _ _ _ _ => exact ⟨rfl, rfl⟩
  | _ => simp_all

end Memory

/-! ## Stages -/

/-- How far the scanner with the memory `m` is in an attribute, if `own` has been read of it. -/
inductive ValueStage (m : Memory) (rest : Text) (pos : Nat) (own : List Token) : Prop where
  -- behind the name, the equals sign, or in front of a value without quotes
  | bare (state : m.state = .attributeNamed ∨ m.state = .beforeValue ∨
      m.state = .value ∧ m.valueMark = none) (noQuote : quotes own = []) (nothing : pieces own = [])
  -- such a value goes on to where it ends, so no other token of it can follow
  | unquoted {x : Token} (state : m.state = .value) (noMark : m.valueMark = none)
      (noQuote : quotes own = []) (single : pieces own = [x]) (value : x.kind = .attributeValue)
      (stops : rest = [] ∨ atUnquotedEnd rest = true)
  -- what is covered goes on from the first quote to here
  | quoted {o : Token} {mark : Char} (state : m.state = .value) (marked : m.valueMark = some mark)
      (quote : quotes own = [o]) (le : o.span.stop ≤ pos)
      (covered : extent own = { span := Span.between o.span.stop pos })
      (whole : m.inDirective = true → pieces own = [] ∨
        (∃ x, pieces own = [x] ∧ x.kind = .attributeValue) ∧
          (rest = [] ∨ startsWith [mark] rest = true))
  -- of the mustache nothing is covered yet
  | mustache {o : Token} {mark : Char} {start : Nat} (state : m.state = .mustache)
      (returns : m.returnState = .value) (marked : m.valueMark = some mark)
      (plain : m.inDirective = false) (quote : quotes own = [o]) (le : o.span.stop ≤ start)
      (lt : start < pos)
      (covered : extent own = { span := Span.between o.span.stop start, opened := some start })
  | settled (state : m.state = .startTag) (inOrder : Settled m.inDirective own)

namespace ValueStage

variable {m m' : Memory} {u rest : Text} {pos pos' : Nat} {own : List Token} {t : Token}
  {dialect : Dialect} {before : Option Char} {kind : TokenKind} {error : Option LexError}

/-- In every stage the tokens are in order. -/
theorem inOrder (h : ValueStage m rest pos own) : Settled m.inDirective own := by
  cases h with
  | bare _ hquotes hpieces =>
    exact ⟨by simp [hquotes], fun _ => .inl hpieces, fun o c hboth => by simp [hquotes] at hboth,
      fun _ => .inl hpieces⟩
  | unquoted _ _ hquotes hpieces value _ =>
    exact ⟨by simp [hquotes], fun _ => .inr ⟨_, hpieces, value⟩,
      fun o c hboth => by simp [hquotes] at hboth, fun _ => .inr ⟨_, hpieces, value⟩⟩
  | quoted _ _ hquotes _ _ whole =>
    exact ⟨by simp [hquotes], fun hnone => by simp [hquotes] at hnone,
      fun o c hboth => by simp [hquotes] at hboth, fun hd => (whole hd).imp_right And.left⟩
  | mustache _ _ _ plain hquotes _ _ _ =>
    exact ⟨by simp [hquotes], fun hnone => by simp [hquotes] at hnone,
      fun o c hboth => by simp [hquotes] at hboth, fun hd => by simp [plain] at hd⟩
  | settled _ hsettled => exact hsettled

/-- The scanner turns to another context. -/
theorem turns (h : ValueStage m u pos own) (hturn : m.Turns u m') :
    ValueStage m' u pos own ∧ m'.inDirective = m.inDirective := by
  have hinOrder := h.inOrder
  cases hturn with
  | noValue _ => exact ⟨.settled rfl hinOrder, rfl⟩
  | valueEnds _ _ => exact ⟨.settled rfl hinOrder, rfl⟩
  | noQuote state =>
    cases h with
    | bare _ hquotes hpieces => exact ⟨.bare (.inr (.inr ⟨rfl, rfl⟩)) hquotes hpieces, rfl⟩
    | _ => simp_all
  | noStartName state | noEndName state => cases h <;> simp_all
  | noBody state => rcases state with state | state <;> cases h <;> simp_all

/-- What the scanner remembers of the last token is no matter. -/
theorem remember (h : ValueStage m rest pos own) (last : Option TokenKind) :
    ValueStage { m with lastKind := last } rest pos own := by
  cases h with
  | bare state hquotes hpieces => exact .bare state hquotes hpieces
  | unquoted state mark hquotes hpieces value stops =>
    exact .unquoted state mark hquotes hpieces value stops
  | quoted state mark hquotes le hextent whole => exact .quoted state mark hquotes le hextent whole
  | mustache state returns mark plain hquotes le lt hextent =>
    exact .mustache state returns mark plain hquotes le lt hextent
  | settled state hsettled => exact .settled state hsettled

/-! ### One token -/

section OneToken

variable (hy : m.Yields dialect before u kind error rest m') (hkind : t.kind = kind)
include hy hkind

/-- No value has begun. It may begin with this token. -/
theorem bare_yields (state : m.state = .attributeNamed ∨ m.state = .beforeValue ∨
      m.state = .value ∧ m.valueMark = none) (noQuote : quotes own = []) (nothing : pieces own = [])
    (hspan : t.span = ⟨pos, pos'⟩) :
    ValueStage m' rest pos' (own ++ [t]) ∧ m'.inDirective = m.inDirective := by
  have hstage : ValueStage m rest pos own := .bare state noQuote nothing
  have hnothing (hother : t.kind.inValue = false) : pieces (own ++ [t]) = [] :=
    (pieces_snoc_of_other own hother).trans nothing
  have hnoQuote (hother : t.kind ≠ .attributeMark) : quotes (own ++ [t]) = [] :=
    (quotes_snoc_of_other own hother).trans noQuote
  rcases state with state | state | ⟨state, noMark⟩
  · rcases hy.of_attributeNamed state with ⟨rfl, rfl⟩ | ⟨rfl, rfl⟩
    · exact ⟨.bare (.inl state) (hnoQuote (by simp [hkind])) (hnothing (by rw [hkind]; rfl)), rfl⟩
    · exact ⟨.bare (.inr (.inl rfl)) (hnoQuote (by simp [hkind])) (hnothing (by rw [hkind]; rfl)),
        rfl⟩
  · rcases hy.of_beforeValue state with ⟨rfl, rfl⟩ | ⟨rfl, mark, rfl⟩
    · exact ⟨.bare (.inr (.inl state)) (hnoQuote (by simp [hkind])) (hnothing (by rw [hkind]; rfl)),
        rfl⟩
    · have hempty := hnothing (by rw [hkind]; rfl)
      have hfirst : quotes (own ++ [t]) = [t] := by
        rw [quotes_snoc, noQuote, if_pos hkind]
        rfl
      refine ⟨.quoted rfl rfl hfirst ?_ ?_ fun _ => .inl hempty, rfl⟩
      · rw [hspan]
      · rw [extent_of_none hempty, hspan, Span.between_self]
  · rcases hy.of_unquoted state noMark with ⟨rfl, rfl⟩ | ⟨rfl, rfl, hstops, _⟩
    · exact ⟨.settled rfl (hstage.inOrder.other (by simp [hkind]) (by rw [hkind]; rfl)), rfl⟩
    · refine ⟨.unquoted state noMark (hnoQuote (by simp [hkind])) ?_ hkind hstops, rfl⟩
      rw [pieces_snoc, nothing, hkind]
      rfl

/-- A value without quotes has been read. It has ended. -/
theorem unquoted_yields {x : Token} (state : m.state = .value) (noMark : m.valueMark = none)
    (noQuote : quotes own = []) (single : pieces own = [x]) (value : x.kind = .attributeValue)
    (stops : u = [] ∨ atUnquotedEnd u = true) (hu : u ≠ [])
    (hmoves : kind = .attributeValue → rest ≠ u) :
    ValueStage m' rest pos' (own ++ [t]) ∧ m'.inDirective = m.inDirective := by
  have hstage : ValueStage m u pos' own := .unquoted state noMark noQuote single value stops
  rcases hy.of_unquoted state noMark with ⟨rfl, rfl⟩ | ⟨rfl, rfl, _, hstays⟩
  · exact ⟨.settled rfl (hstage.inOrder.other (by simp [hkind]) (by rw [hkind]; rfl)), rfl⟩
  · -- the value would stand still
    exact absurd (hstays (stops.resolve_left hu)) (hmoves rfl)

/-- A value with quotes is read. -/
theorem quoted_yields {o : Token} {mark : Char} (state : m.state = .value)
    (marked : m.valueMark = some mark) (quote : quotes own = [o]) (le : o.span.stop ≤ pos)
    (covered : extent own = { span := Span.between o.span.stop pos })
    (whole : m.inDirective = true → pieces own = [] ∨
      (∃ x, pieces own = [x] ∧ x.kind = .attributeValue) ∧
        (u = [] ∨ startsWith [mark] u = true))
    (hu : u ≠ []) (hspan : t.span = ⟨pos, pos'⟩) (hmoves : kind.inValue = true → pos < pos') :
    ValueStage m' rest pos' (own ++ [t]) ∧ m'.inDirective = m.inDirective := by
  have hsame (hother : t.kind ≠ .attributeMark) : quotes (own ++ [t]) = [o] :=
    (quotes_snoc_of_other own hother).trans quote
  rcases hy.of_quoted state marked with ⟨rfl, rfl⟩ | ⟨rfl, rfl, hends⟩ | ⟨rfl, plain, rfl⟩
  · -- the second quote
    have hquotes : quotes (own ++ [t]) = [o, t] := by
      rw [quotes_snoc, quote, if_pos hkind]
      rfl
    have hother : t.kind.inValue = false := by rw [hkind]; rfl
    refine ⟨.settled rfl ⟨by simp [hquotes], fun hnone => by simp [hquotes] at hnone,
      fun o' c hboth => ?_, fun hdirective => ?_⟩, rfl⟩
    · obtain ⟨rfl, rfl⟩ : o = o' ∧ t = c := by simpa [hquotes] using hboth
      rw [extent_snoc, ValueExtent.take_of_other _ hother, covered, hspan]
    · unfold Whole
      rw [pieces_snoc_of_other own hother]
      exact (whole hdirective).imp_right And.left
  · -- a piece of the value, which begins where the covered part ends
    have hlt := hmoves rfl
    have hquotes := hsame (by simp [hkind])
    refine ⟨.quoted state marked hquotes (Nat.le_trans le (Nat.le_of_lt hlt)) ?_
      fun hdirective => ?_, rfl⟩
    · rw [extent_snoc, covered, ← Span.widen_between le hlt, ← hspan]
      simp [ValueExtent.take, hkind]
    · -- that of a directive goes on to the quote, so it is the first
      obtain ⟨hhere, hrest⟩ := hends hdirective
      have hfirst : pieces own = [] := by
        refine (whole hdirective).resolve_right fun ⟨_, hend⟩ => ?_
        have hmark := hend.resolve_left hu
        rw [hhere] at hmark
        simp at hmark
      refine .inr ⟨⟨t, ?_, hkind⟩, hrest⟩
      rw [pieces_snoc, hfirst, hkind]
      rfl
  · -- a mustache
    have hlt := hmoves rfl
    have hquotes := hsame (by simp [hkind])
    refine ⟨.mustache rfl state marked plain hquotes le hlt ?_, rfl⟩
    rw [extent_snoc, covered]
    simp [ValueExtent.take, hkind, hspan]

/-- A mustache in a value is read. -/
theorem mustache_yields {o : Token} {mark : Char} {start : Nat} (state : m.state = .mustache)
    (returns : m.returnState = .value) (marked : m.valueMark = some mark)
    (plain : m.inDirective = false) (quote : quotes own = [o]) (le : o.span.stop ≤ start)
    (lt : start < pos)
    (covered : extent own = { span := Span.between o.span.stop start, opened := some start })
    (hspan : t.span = ⟨pos, pos'⟩) (hmoves : kind.inValue = true → pos < pos') :
    ValueStage m' rest pos' (own ++ [t]) ∧ m'.inDirective = m.inDirective := by
  have hquotes (hother : t.kind ≠ .attributeMark) : quotes (own ++ [t]) = [o] :=
    (quotes_snoc_of_other own hother).trans quote
  rcases hy.of_mustache state with ⟨rfl, blank, rfl⟩ | ⟨rfl, rfl⟩
  · have hlt := hmoves rfl
    refine ⟨.mustache state returns marked plain (hquotes (by simp [hkind])) le
      (Nat.lt_trans lt hlt) ?_, rfl⟩
    rw [extent_snoc, covered]
    simp [ValueExtent.take, hkind]
  · -- the mustache is covered from its beginning, which is where the covered part ends
    have hlt := Nat.lt_trans lt (hmoves rfl)
    refine ⟨.quoted returns marked (hquotes (by simp [hkind]))
      (Nat.le_trans le (Nat.le_of_lt hlt)) ?_ fun hdirective => ?_, rfl⟩
    · rw [extent_snoc, covered, ← Span.widen_between le hlt]
      simp [ValueExtent.take, hkind, hspan]
    · rw [show m.leave.inDirective = m.inDirective from rfl, plain] at hdirective
      simp at hdirective

/-- **One token of an attribute** leads from one stage to another. -/
theorem yields (h : ValueStage m u pos own) (hgoes : kind.endsAttribute = false) (hu : u ≠ [])
    (hspan : t.span = ⟨pos, pos'⟩) (hmoves : kind.inValue = true → pos < pos')
    (hempty : rest = u → pos' = pos) :
    ValueStage m' rest pos' (own ++ [t]) ∧ m'.inDirective = m.inDirective := by
  cases h with
  | bare state noQuote nothing => exact bare_yields hy hkind state noQuote nothing hspan
  | unquoted state noMark noQuote single value stops =>
    refine unquoted_yields hy hkind state noMark noQuote single value stops hu ?_
    rintro rfl hsame
    exact Nat.ne_of_gt (hmoves rfl) (hempty hsame)
  | quoted state marked quote le covered whole =>
    exact quoted_yields hy hkind state marked quote le covered whole hu hspan hmoves
  | mustache state returns marked plain quote le lt covered =>
    exact mustache_yields hy hkind state returns marked plain quote le lt covered hspan hmoves
  | settled state inOrder =>
    rcases hy.of_startTag state hgoes with ⟨rfl, rfl⟩ | ⟨rfl, rfl⟩
    · exact ⟨.settled state (inOrder.other (by simp [hkind]) (by rw [hkind]; rfl)), rfl⟩
    · exact ⟨.settled state (inOrder.other (by simp [hkind]) (by rw [hkind]; rfl)), rfl⟩

end OneToken

/-- Nothing else is read of an attribute. -/
theorem inAttribute (h : ValueStage m u pos own)
    (hy : m.Yields dialect before u kind error rest m') (hgoes : kind.endsAttribute = false) :
    kind.inAttribute = true := by
  cases h with
  | bare state _ _ =>
    rcases state with state | state | ⟨state, noMark⟩
    · rcases hy.of_attributeNamed state with ⟨rfl, _⟩ | ⟨rfl, _⟩ <;> rfl
    · rcases hy.of_beforeValue state with ⟨rfl, _⟩ | ⟨rfl, _⟩ <;> rfl
    · rcases hy.of_unquoted state noMark with ⟨rfl, _⟩ | ⟨rfl, _⟩ <;> rfl
  | unquoted state noMark _ _ _ _ =>
    rcases hy.of_unquoted state noMark with ⟨rfl, _⟩ | ⟨rfl, _⟩ <;> rfl
  | quoted state marked _ _ _ _ =>
    rcases hy.of_quoted state marked with ⟨rfl, _⟩ | ⟨rfl, _⟩ | ⟨rfl, _⟩ <;> rfl
  | mustache state _ _ _ _ _ _ _ =>
    rcases hy.of_mustache state with ⟨rfl, _⟩ | ⟨rfl, _⟩ <;> rfl
  | settled state _ => rcases hy.of_startTag state hgoes with ⟨rfl, _⟩ | ⟨rfl, _⟩ <;> rfl

end ValueStage

/-! ## The attributes of a document -/

namespace Scanner

variable {s : Scanner} {ts own after : List Token} {name : Token}

/-- The tokens of every attribute are in order, and the scanner is in one of the stages if one is
still read. -/
def ValuesSettled (s : Scanner) (ts : List Token) : Prop :=
  ∀ name own after, Stretch TokenKind.endsAttribute ts name own after → name.attribute? ≠ none →
    Settled (name.kind == .directiveName) own ∧
      (after = [] → ValueStage s.memory s.rest s.offset own ∧
        s.memory.inDirective = (name.kind == .directiveName))

/-- The stage is that of the context in which the token is read. -/
theorem exists_stage (hrest : s.rest ≠ []) (h : ValueStage s.memory s.rest s.offset own) :
    ∃ m kind error rest m', (ValueStage m s.rest s.offset own ∧
        m.inDirective = s.memory.inDirective) ∧
      m.Yields s.dialect s.before s.rest kind error rest m' ∧
      s.scan = s.take kind error rest m' := by
  obtain ⟨m, kind, error, rest, m', hturns, hyields, hscan⟩ := scan_before_end hrest
  have hstage := hturns.keeps
    (P := fun m => ValueStage m s.rest s.offset own ∧ m.inDirective = s.memory.inDirective)
    (fun _ _ h hturn => ⟨(h.1.turns hturn).1, (h.1.turns hturn).2.trans h.2⟩) ⟨h, rfl⟩
  exact ⟨m, kind, error, rest, m', hstage, hyields, hscan⟩

/-- What is read of an attribute, if this is not its end. -/
theorem stage_scan (hrest : s.rest ≠ []) (hstalls : ¬ s.Stalls)
    (h : ValueStage s.memory s.rest s.offset own) (hgoes : s.scan.1.kind.endsAttribute = false) :
    ValueStage s.scan.2.memory s.scan.2.rest s.scan.2.offset (own ++ [s.scan.1]) ∧
      s.scan.2.memory.inDirective = s.memory.inDirective := by
  obtain ⟨hspan, hoffset⟩ := s.scan_span
  have hmoves (hvalue : s.scan.1.kind.inValue = true) : s.offset < s.scan.2.offset := by
    by_cases hattr : s.scan.1.kind = .attributeValue
    · rw [hoffset]
      exact Nat.lt_add_of_pos_right (size_pos fun hnil => hstalls ⟨hattr, hnil⟩)
    · refine offset_lt hrest ⟨fun hkind => ?_, fun hkind => ?_, hattr⟩
      · simp [hkind, TokenKind.inValue] at hvalue
      · simp [hkind, TokenKind.inValue] at hvalue
  have hempty (hsame : s.scan.2.rest = s.rest) : s.scan.2.offset = s.offset := by
    have hreads := s.scan_reads
    rw [hsame] at hreads
    rw [hoffset, List.self_eq_append_left.1 hreads]
    rfl
  obtain ⟨m, kind, error, rest, m', ⟨hstage, hsame⟩, hyields, hscan⟩ := exists_stage hrest h
  have hkind : s.scan.1.kind = kind := by rw [hscan]; rfl
  have hbehind : s.scan.2.rest = rest := by rw [hscan]; rfl
  have hmemory : s.scan.2.memory = { m' with lastKind := some kind } := by rw [hscan]; rfl
  rw [hkind] at hgoes hmoves
  rw [hbehind] at hempty
  obtain ⟨hnext, hnextSame⟩ := hstage.yields hyields hkind hgoes hrest hspan hmoves hempty
  rw [hbehind, hmemory]
  exact ⟨hnext.remember _, hnextSame.trans hsame⟩

theorem inAttribute_scan (hrest : s.rest ≠ []) (h : ValueStage s.memory s.rest s.offset own)
    (hgoes : s.scan.1.kind.endsAttribute = false) : s.scan.1.kind.inAttribute = true := by
  obtain ⟨m, kind, error, rest, m', ⟨hstage, _⟩, hyields, hscan⟩ := exists_stage hrest h
  rw [hscan] at hgoes ⊢
  exact hstage.inAttribute hyields hgoes

/-- A name is the first token of an attribute. -/
theorem stage_of_name (hrest : s.rest ≠ []) (hname : s.scan.1.attribute? ≠ none) :
    ValueStage s.scan.2.memory s.scan.2.rest s.scan.2.offset [] ∧
      s.scan.2.memory.inDirective = (s.scan.1.kind == .directiveName) := by
  obtain ⟨m, kind, error, rest, m', hturns, hyields, hscan⟩ := scan_before_end hrest
  rw [hscan] at hname ⊢
  obtain ⟨state, hdirective⟩ := hyields.of_name (Token.kind_of_attribute? hname)
  have hstage : ValueStage m' rest (s.take kind error rest m').2.offset [] :=
    .bare (.inl state) rfl rfl
  exact ⟨hstage.remember _, hdirective⟩

theorem valuesSettled_nil (s : Scanner) : s.ValuesSettled [] := by
  intro name own after h
  obtain ⟨front, hsplit⟩ := h.split
  simp at hsplit

/-- **One token.** -/
theorem valuesSettled_scan (hrest : s.rest ≠ []) (hstalls : ¬ s.Stalls)
    (h : s.ValuesSettled ts) : s.scan.2.ValuesSettled (ts ++ [s.scan.1]) := by
  intro name own after hstretch hname
  rcases hstretch.snoc_cases with ⟨rfl, rfl, rfl⟩ | ⟨own', rfl, rfl, hold, hgoes⟩ |
    ⟨after', rfl, hold⟩
  · obtain ⟨hstage, hdirective⟩ := stage_of_name hrest hname
    exact ⟨hdirective ▸ hstage.inOrder, fun _ => ⟨hstage, hdirective⟩⟩
  · obtain ⟨hstage, hdirective⟩ := (h name own' [] hold hname).2 rfl
    obtain ⟨hnext, hsame⟩ := stage_scan hrest hstalls hstage hgoes
    have hdirective := hsame.trans hdirective
    exact ⟨hdirective ▸ hnext.inOrder, fun _ => ⟨hnext, hdirective⟩⟩
  · exact ⟨(h name own after' hold hname).1, fun hnil => by simp at hnil⟩

end Scanner

end HybridMarkup
