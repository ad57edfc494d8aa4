/-
Two prose documents read side by side.

A `Stage` is a document that has been read for some way: the scanner, and the draft of its tree. The
stages of two documents are followed token by token, in front of a fence up to which the documents
are the same (`Stage.Beside.scan`), and behind a place from which on they are (`Stage.Level.scan`).
What the documents are in the end only depends on where they come to, not on how many tokens it
took (`Stage.draft_eq`), so that two stages can be compared which one document reaches with a token
more than the other.
-/
import HybridMarkup.Proofs.AlikeDrafts
import HybridMarkup.Proofs.CopiedOnce
import HybridMarkup.Proofs.SameFront

set_option autoImplicit false

namespace HybridMarkup

open Text ProseArtifacts

namespace Memory

variable {m m' : Memory} {dialect : Dialect} {before : Option Char} {t rest : Text}
  {kind : TokenKind} {error : Option LexError}

/-- The rules of prose yield the tokens of prose. -/
theorem Yields.isProse (h : m.Yields dialect before t kind error rest m')
    (prose : dialect ≠ .template) (hm : m.InProse) : kind.isProse = true := by
  cases h with
  | endTagOpen _ template _ | startTagOpen _ template _ | contentMustache _ template _ =>
    exact absurd template prose
  | startTag state _ | selfClose state _ | startTagClose state _ | startTagBroken state _
  | attributeName state _ _ _ | directiveName state _ _ _ | attributeDelimiter state _
  | openingMark state _ _ | unquotedValue state _ _ _ _ _ | closingMark state _ _
  | directiveValue state _ _ _ | valueMustache state _ _ _ | quotedValue state _ _ _
  | mustacheEnd state _ | mustacheContent state _ | endTag state _ | endTagClose state _
  | endTagBroken state _ => simp [InProse, state] at hm
  | rawText e state _ _ => cases e <;> simp [InProse, state] at hm
  | _ => rfl

end Memory

/-- What is taken of the same text is the same up to its place. -/
theorem Scanner.take_alike {s s' : Scanner} (hbefore : s'.before = s.before)
    (hrest : s'.rest = s.rest) (kind : TokenKind) (error : Option LexError) (rest : Text)
    (m : Memory) :
    (s.take kind error rest m).1.Alike (s'.take kind error rest m).1 ∧
      (s'.take kind error rest m).2.before = (s.take kind error rest m).2.before := by
  simp only [take, hbefore, hrest]
  exact ⟨⟨rfl, rfl, rfl⟩, trivial⟩

/-- A document that has been read for some way. -/
structure Stage where
  scanner : Scanner
  draft : Draft

namespace Stage

/-- The document of which nothing has been read. -/
def start (dialect : Dialect) (text : Text) : Stage :=
  ⟨Scanner.start dialect text, Draft.start dialect text⟩

/-- The next token is taken in. -/
def next (st : Stage) : Stage := ⟨st.scanner.scan.2, st.draft.takeToken st.scanner.scan.1⟩

/-- A step that takes a part of the text. -/
theorem next_eq {st : Stage} {part rest : Text} {kind : TokenKind} {error : Option LexError}
    {m : Memory} (hrest : st.scanner.rest = part ++ rest)
    (hstep : st.scanner.memory.step st.scanner.dialect st.scanner.before (part ++ rest)
      = .token kind error rest m) :
    st.next =
      { scanner :=
          { st.scanner with
            offset := st.scanner.offset + size part
            before := part.getLast?.or st.scanner.before
            rest
            memory := { m with lastKind := some kind } }
        draft := st.draft.takeToken
          { kind
            span := Span.ofLength st.scanner.offset (size part)
            lexeme := part
            error } } := by
  rw [next, Scanner.scan_eq_take (hrest ▸ hstep), Scanner.take_of_append hrest]

/-- A number of tokens is taken in. -/
def after : Nat → Stage → Stage
  | 0, st => st
  | n + 1, st => after n st.next

theorem after_add (n k : Nat) (st : Stage) : st.after (n + k) = (st.after n).after k := by
  induction n generalizing st with
  | zero => rw [Nat.zero_add]; rfl
  | succ n ih =>
    rw [Nat.succ_add]
    exact ih st.next

theorem scanner_after (n : Nat) (st : Stage) : (st.after n).scanner = st.scanner.after n := by
  induction n generalizing st with
  | zero => rfl
  | succ n ih => exact ih st.next

theorem draft_after (n : Nat) (st : Stage) :
    (st.after n).draft = (st.scanner.tokens n).foldl Draft.takeToken st.draft := by
  induction n generalizing st with
  | zero => rfl
  | succ n ih => exact ih st.next

theorem rest_suffix (n : Nat) (st : Stage) : (st.after n).scanner.rest <:+ st.scanner.rest := by
  induction n generalizing st with
  | zero => exact List.suffix_refl _
  | succ n ih =>
    refine (ih st.next).trans ⟨st.scanner.scan.1.lexeme, ?_⟩
    exact st.scanner.scan_reads.symm

/-- At the end nothing more happens to the draft. -/
theorem after_at_end {st : Stage} (h : st.scanner.rest = []) (n : Nat) :
    (st.after n).draft = st.draft := by
  induction n generalizing st with
  | zero => rfl
  | succ n ih =>
    have hscan := Scanner.scan_at_end h
    have hnext : st.next.draft = st.draft := by
      show st.draft.takeToken st.scanner.scan.1 = st.draft
      rw [hscan]
      rfl
    have hrest : st.next.scanner.rest = [] := by
      show st.scanner.scan.2.rest = []
      rw [hscan]
      rfl
    exact (ih hrest).trans hnext

/-- The stage of a document of prose. -/
structure Of (dialect : Dialect) (text : Text) (st : Stage) : Prop where
  prose : dialect ≠ .template
  within : st.scanner.Within text
  dialect_eq : st.scanner.dialect = dialect
  synced : ∃ deal, Synced dialect text st.scanner.memory st.scanner.rest st.scanner.offset deal
    st.draft

variable {dialect : Dialect} {text text' : Text} {st st' : Stage}

theorem of_start (prose : dialect ≠ .template) (text : Text) :
    (start dialect text).Of dialect text :=
  ⟨prose, Scanner.start_within dialect text, rfl, {}, Draft.stands_start pieces dialect text⟩

theorem Of.next (h : st.Of dialect text) : st.next.Of dialect text := by
  obtain ⟨deal, hsynced⟩ := h.synced
  exact ⟨h.prose, h.within.scan, st.scanner.scan_dialect.trans h.dialect_eq, _,
    hsynced.scan h.prose h.within h.dialect_eq⟩

theorem Of.after (h : st.Of dialect text) (n : Nat) : (st.after n).Of dialect text := by
  induction n generalizing st with
  | zero => exact h
  | succ n ih => exact ih h.next

theorem Of.inProse (h : st.Of dialect text) : st.scanner.memory.InProse := by
  obtain ⟨deal, hsynced⟩ := h.synced
  unfold Synced at hsynced
  unfold Memory.InProse
  split at hsynced
  case h_6 => exact hsynced.elim
  all_goals next hstate => simp [hstate]

theorem Of.text_eq (h : st.Of dialect text) :
    st.draft.tree.text = text ∧ st.draft.tree.dialect = dialect := by
  obtain ⟨deal, hsynced⟩ := h.synced
  obtain ⟨_, _, hstands⟩ := hsynced.stands
  exact ⟨hstands.text_eq, hstands.dialect_eq⟩

/-- The next token covers what it says. -/
theorem Of.token_covers (h : st.Of dialect text) :
    slice st.draft.tree.text st.scanner.scan.1.span = st.scanner.scan.1.lexeme := by
  rw [h.text_eq.1]
  exact h.within.token_slice

theorem Of.token_isProse (h : st.Of dialect text) : st.scanner.scan.1.kind.isProse = true := by
  by_cases hrest : st.scanner.rest = []
  · rw [Scanner.scan_at_end hrest]
    rfl
  · obtain ⟨m, kind, error, rest, m', hturns, hyields, hscan⟩ := Scanner.scan_before_end hrest
    rw [hturns.eq_of_rank h.inProse.rank_eq_zero] at hyields
    rw [hscan]
    exact hyields.isProse (h.dialect_eq ▸ h.prose) h.inProse

/-- What has been read ends where the scanner stands. -/
theorem Of.offset_eq {read rest : Text} (h : st.Of dialect text) (htext : text = read ++ rest)
    (hrest : st.scanner.rest = rest) : st.scanner.offset = size read := by
  obtain ⟨read', htext', hoffset, _⟩ := h.within
  rw [htext', hrest] at htext
  rw [hoffset, List.append_cancel_right htext]

theorem Of.rest_eq {read rest : Text} (h : st.Of dialect text) (htext : text = read ++ rest)
    (hoffset : st.scanner.offset = size read) : st.scanner.rest = rest := by
  obtain ⟨read', htext', hoffset', _⟩ := h.within
  have hread : read' = read := by
    rw [← takeBytes_append read' st.scanner.rest, ← hoffset', hoffset, ← htext', htext,
      takeBytes_append]
  rw [htext', hread] at htext
  exact List.append_cancel_left htext

/-- The end of the text is reached. -/
theorem exists_end (prose : dialect ≠ .template) (text : Text) :
    ∃ n, ((start dialect text).after n).scanner.rest = [] := by
  obtain ⟨n, hn⟩ := reachesEnd prose text
  refine ⟨n, ?_⟩
  rw [scanner_after]
  exact (Scanner.scan_kind_eq_eos_iff _).1 hn

/-- **The draft of a document is what is found at the end of its text**, however it was reached. -/
theorem draft_eq (prose : dialect ≠ .template) {n : Nat}
    (hend : ((start dialect text).after n).scanner.rest = []) :
    Parse.draft dialect text = ((start dialect text).after n).draft.finish := by
  obtain ⟨k, htokens, heos⟩ := (reachesEnd prose text).listsAll
  have hk : ((start dialect text).after k).scanner.rest = [] := by
    rw [scanner_after]
    exact (Scanner.scan_kind_eq_eos_iff _).1 heos
  have hdraft : (tokenize dialect text).foldl Draft.takeToken (Draft.start dialect text)
      = ((start dialect text).after (k + 1)).draft := by
    rw [htokens, draft_after]
    rfl
  rw [Parse.draft, hdraft]
  -- one of the two places is behind the other, and nothing happens between them
  rcases Nat.le_total n k with hle | hle
  · obtain ⟨j, rfl⟩ := Nat.exists_eq_add_of_le hle
    rw [Nat.add_assoc, after_add, after_at_end hend]
  · obtain ⟨j, rfl⟩ := Nat.exists_eq_add_of_le hle
    rw [after_add, after_add, after_at_end hk, after_at_end hk]

/-- A token is read at some stage. -/
theorem exists_of_mem_tokenize (prose : dialect ≠ .template) {t : Token}
    (ht : t ∈ tokenize dialect text) : ∃ n, ((start dialect text).after n).scanner.scan.1 = t := by
  have hmem (n : Nat) (s : Scanner) (ht : t ∈ s.tokens n) : ∃ k, (s.after k).scan.1 = t := by
    induction n generalizing s with
    | zero => simp [Scanner.tokens] at ht
    | succ n ih =>
      rcases List.mem_cons.1 ht with rfl | ht
      · exact ⟨0, rfl⟩
      · obtain ⟨k, hk⟩ := ih s.scan.2 ht
        exact ⟨k + 1, hk⟩
  obtain ⟨n, htokens, _⟩ := (reachesEnd prose text).listsAll
  obtain ⟨k, hk⟩ := hmem (n + 1) _ (htokens ▸ ht)
  exact ⟨k, by rw [scanner_after]; exact hk⟩

/-! ## In front of a fence -/

/-- The next token is the same up to its place, and so is what it does. -/
theorem Of.alike_next {edit : Option Draft.Edit} (h : st.Of dialect text)
    (h' : st'.Of dialect text') (hdraft : Draft.Alike edit st.draft st'.draft)
    (htoken : st.scanner.scan.1.Alike st'.scanner.scan.1) :
    Draft.Alike edit st.next.draft st'.next.draft := by
  refine hdraft.takeToken (h.text_eq.2 ▸ h.prose) htoken h.token_isProse ?_
  rw [h.token_covers, h'.token_covers]
  exact htoken.lexeme_eq

/-- Two stages at the same place, and in front of the same text for some way. -/
structure Beside (w w' : Text) (st st' : Stage) : Prop where
  scanner : Scanner.Beside w w' st.scanner st'.scanner
  draft : Draft.Alike none st.draft st'.draft

variable {w w' y y' r : Text}

/-- The same token is taken in. -/
theorem Beside.next_of_scan (h : Beside w w' st st') (hof : st.Of dialect text)
    (hof' : st'.Of dialect text')
    (hscan : st'.scanner.scan.1 = st.scanner.scan.1 ∧
      Scanner.Beside w w' st.scanner.scan.2 st'.scanner.scan.2) :
    Beside w w' st.next st'.next := by
  obtain ⟨htoken, hscanner⟩ := hscan
  refine ⟨hscanner, hof.alike_next hof' h.draft ?_⟩
  rw [htoken]
  exact ⟨rfl, rfl, rfl⟩

/-- The same step is taken. -/
theorem Beside.next_of_step {part : Text} {kind : TokenKind} {error : Option LexError} {m : Memory}
    (h : Beside w w' st st') (hof : st.Of dialect text) (hof' : st'.Of dialect text')
    (hrest : st.scanner.rest = part ++ (r ++ w))
    (hstep : st.scanner.memory.step st.scanner.dialect st.scanner.before (part ++ (r ++ w))
      = .token kind error (r ++ w) m)
    (hstep' : st.scanner.memory.step st.scanner.dialect st.scanner.before (part ++ (r ++ w'))
      = .token kind error (r ++ w') m) :
    Beside w w' st.next st'.next := by
  have hrest' : st'.scanner.rest = part ++ (r ++ w') := by
    obtain ⟨c, hc, hc'⟩ := h.scanner.rest_eq
    rw [hrest, ← List.append_assoc] at hc
    rw [hc', ← List.append_cancel_right hc, List.append_assoc]
  rw [← h.scanner.memory_eq, ← h.scanner.dialect_eq, ← h.scanner.before_eq, ← hrest'] at hstep'
  rw [← hrest] at hstep
  exact h.next_of_scan hof hof' (h.scanner.scan_of_step ⟨part, hrest.symm⟩ hstep hstep')

/-- **Two documents that are the same up to a fence are read alike up to the fence.** -/
theorem Beside.after (h : Beside (fence ++ y) (fence ++ y') st st') (hof : st.Of dialect text)
    (hof' : st'.Of dialect text') (n : Nat)
    (hfront : (st.after n).scanner.rest = r ++ (fence ++ y)) :
    Beside (fence ++ y) (fence ++ y') (st.after n) (st'.after n) := by
  induction n generalizing st st' with
  | zero => exact h
  | succ n ih =>
    obtain ⟨z, hz⟩ := exists_front (hfront ▸ rest_suffix n st.next)
    have hscan := h.scanner.scan (hof.dialect_eq ▸ hof.prose) hof.inProse hz
    exact ih (h.next_of_scan hof hof' hscan) hof.next hof'.next hfront

theorem beside_start (dialect : Dialect) (c w w' : Text) :
    Beside w w' (start dialect (c ++ w)) (start dialect (c ++ w')) :=
  ⟨⟨rfl, rfl, rfl, rfl, c, rfl, rfl⟩, Draft.alike_start ..⟩

/-! ## With the same text left -/

/-- Two stages with the same text left. -/
structure Level (edit : Option Draft.Edit) (st st' : Stage) : Prop where
  dialect_eq : st'.scanner.dialect = st.scanner.dialect
  before_eq : st'.scanner.before = st.scanner.before
  memory_eq : st'.scanner.memory = st.scanner.memory
  rest_eq : st'.scanner.rest = st.scanner.rest
  draft : Draft.Alike edit st.draft st'.draft

variable {edit : Option Draft.Edit}

theorem Level.next (h : Level edit st st') (hof : st.Of dialect text)
    (hof' : st'.Of dialect text') : Level edit st.next st'.next := by
  have hscan : st.scanner.scan.1.Alike st'.scanner.scan.1 ∧
      st'.scanner.scan.2.before = st.scanner.scan.2.before ∧
      st'.scanner.scan.2.memory = st.scanner.scan.2.memory ∧
      st'.scanner.scan.2.rest = st.scanner.scan.2.rest := by
    unfold Scanner.scan
    rw [h.dialect_eq, h.before_eq, h.memory_eq, h.rest_eq]
    split
    · next kind error rest m _ =>
      obtain ⟨htoken, hbefore⟩ := Scanner.take_alike h.before_eq h.rest_eq kind error rest m
      exact ⟨htoken, hbefore, rfl, rfl⟩
    · next m _ =>
      obtain ⟨htoken, hbefore⟩ :=
        Scanner.take_alike h.before_eq h.rest_eq .unknown none st.scanner.rest m
      exact ⟨htoken, hbefore, rfl, rfl⟩
  obtain ⟨htoken, hbefore, hmemory, hrest⟩ := hscan
  have hdialect : st'.scanner.scan.2.dialect = st.scanner.scan.2.dialect := by
    rw [Scanner.scan_dialect, Scanner.scan_dialect, h.dialect_eq]
  exact ⟨hdialect, hbefore, hmemory, hrest, hof.alike_next hof' h.draft htoken⟩

/-- **Two stages with the same text left are read alike to the end.** -/
theorem Level.after (h : Level edit st st') (hof : st.Of dialect text) (hof' : st'.Of dialect text')
    (n : Nat) : Level edit (st.after n) (st'.after n) := by
  induction n generalizing st st' with
  | zero => exact h
  | succ n ih => exact ih (h.next hof hof') hof.next hof'.next

/-- Documents that come to have the same text left come to have the same tree. -/
theorem Level.draft_alike (prose : dialect ≠ .template) {n n' : Nat}
    (h : Level edit ((start dialect text).after n) ((start dialect text').after n')) :
    Draft.Alike edit (Parse.draft dialect text) (Parse.draft dialect text') := by
  have hof := (of_start prose text).after n
  have hof' := (of_start prose text').after n'
  obtain ⟨k, hk⟩ := exists_end prose text
  have hend : ((start dialect text).after (n + k)).scanner.rest = [] := by
    rw [Nat.add_comm, after_add]
    exact List.suffix_nil.1 (hk ▸ rest_suffix n _)
  rw [after_add] at hend
  have hlevel := h.after hof hof' k
  have hend' := hlevel.rest_eq.trans hend
  rw [← after_add] at hend hend'
  rw [draft_eq prose hend, draft_eq prose hend', after_add, after_add]
  exact hlevel.draft.finish

end Stage

end HybridMarkup
