/-
What an end tag does.

Only the last bracket of an end tag changes the tree. It closes the nearest open element of the name
of the tag (`Draft.ClosesElement`): what is open below that element is closed where the tag begins,
and reported, the innermost first, and the parent of the element is open from then on. All nodes
keep their kinds, their children and their parents. If there is no such element, nothing changes but
that the tag is reported itself. `Parse.end_tag_effect` says this of every end tag that has a name.

What is reported goes through a sink that merges an entry into the one before it if both say the
same with the same severity and meet. The severity of an entry is known from its name
(`Diagnostic.Graded`), so for an end tag that closes nothing the name and the place decide. The
entries about what is closed on the way are not merged at all, which the ledger of the draft says.
-/
import HybridMarkup.Proofs.Ledger
import HybridMarkup.Proofs.Reported

set_option autoImplicit false

namespace HybridMarkup

open Text

/-- The tokens from a place on are a token, and those behind it. -/
theorem Scanner.tokensIn_eq_cons {s : Scanner} {fuel : Nat} {t : Token} {rest : List Token}
    (h : s.tokensIn fuel = t :: rest) (hnext : t.kind ≠ .eos ∨ rest ≠ []) :
    s.scan.1 = t ∧ s.rest ≠ [] ∧ ∃ fuel', s.scan.2.tokensIn fuel' = rest := by
  cases fuel with
  | zero => simp [tokensIn] at h
  | succ fuel =>
    by_cases heos : s.scan.1.kind = .eos
    · have htokens : s.tokensIn (fuel + 1) = [s.scan.1] := by
        simp only [tokensIn, heos, if_true]
      rw [htokens, List.cons.injEq] at h
      obtain ⟨rfl, rfl⟩ := h
      simp [heos] at hnext
    · have htokens : s.tokensIn (fuel + 1) = s.scan.1 :: s.scan.2.tokensIn fuel := by
        simp only [tokensIn, heos, if_false]
      rw [htokens, List.cons.injEq] at h
      exact ⟨h.1, fun hnil => heos ((s.scan_kind_eq_eos_iff).2 hnil), fuel, h.2⟩

/-! ## The severity of what is reported -/

/-- The severity of the entry is the one that belongs to its name. -/
def Diagnostic.Graded (x : Diagnostic) : Prop :=
  (∃ error : ParseError, x.name = error.name ∧ x.severity = error.severity) ∨
    ∃ error : LexError, x.name = error.name ∧ x.severity = .error

theorem Diagnostic.Graded.severity_eq {x : Diagnostic} (h : x.Graded)
    (hname : x.name = ParseError.extraCloseTag.name) : x.severity = .error := by
  rcases h with ⟨error, herror, hseverity⟩ | ⟨error, _, hseverity⟩
  · rw [hseverity]
    rw [herror] at hname
    cases error <;> first | rfl | simp [ParseError.name] at hname
  · exact hseverity

/-- What is wrong with a token, as it is reported. -/
def Token.faults (t : Token) : List Diagnostic :=
  t.error.toList.map fun error =>
    { name := error.name, message := error.message, severity := .error, span := t.span }

namespace Diagnostics

variable {s s' : Diagnostics} {x : Diagnostic}

/-- Every entry has the severity that belongs to its name. -/
def Graded (s : Diagnostics) : Prop := ∀ x ∈ s.newestFirst, x.Graded

theorem Graded.push (h : s.Graded) (hx : x.Graded) : (s.push x).Graded := by
  unfold Graded at h
  unfold Diagnostics.push
  split
  · intro y hy
    exact List.mem_singleton.1 hy ▸ hx
  · next last older heq =>
    rw [heq] at h
    have hlast : last.Graded := h last List.mem_cons_self
    split
    · intro y hy
      rcases List.mem_cons.1 hy with rfl | hy
      · exact hlast
      · exact h y (List.mem_cons_of_mem _ hy)
    · intro y hy
      rcases List.mem_cons.1 hy with rfl | hy
      · exact hx
      · exact h y hy

theorem Graded.adds {faults : List ParseError} (h : s.Graded) (hadds : s.Adds faults s') :
    s'.Graded := by
  induction hadds with
  | refl => exact h
  | @push _ error _ _ _ ih => exact ih.push (.inl ⟨error, rfl, rfl⟩)

/-- `x` is reported: within the newest entry, if that has the same name and ends where `x` begins,
and as an entry of its own if not. -/
inductive Reports (s : Diagnostics) (x : Diagnostic) (s' : Diagnostics) : Prop where
  | merged {older : List Diagnostic} {last : Diagnostic} (before : s.entries = older ++ [last])
      (name : last.name = x.name) (meets : last.span.stop = x.span.start)
      (after : s'.entries = older ++ [{ last with span := ⟨last.span.start, x.span.stop⟩ }])
  | apart (before : ∀ older last, s.entries = older ++ [last] →
        ¬ (last.name = x.name ∧ last.span.stop = x.span.start))
      (after : s'.entries = s.entries ++ [x])

/-- **An end tag that closes nothing is reported.** -/
theorem reports_push {span : Span} (hgraded : s.Graded)
    (hordered : ∀ y ∈ s.newestFirst, y.span.start ≤ y.span.stop) (hspan : span.start ≤ span.stop) :
    s.Reports (ParseError.extraCloseTag.entry span)
      (s.push (ParseError.extraCloseTag.entry span)) := by
  cases hnewest : s.newestFirst with
  | nil =>
    have hnone : s.entries = [] := by rw [entries, hnewest, List.reverse_nil]
    refine .apart (fun older last hlast => ?_) (entries_push fun last hlast => ?_)
    · simp [hnone] at hlast
    · simp [last?, hnewest] at hlast
  | cons last older =>
    have hentries : s.entries = older.reverse ++ [last] := by
      rw [entries, hnewest, List.reverse_cons]
    have hmem : last ∈ s.newestFirst := hnewest ▸ List.mem_cons_self
    by_cases hmeets : last.name = ParseError.extraCloseTag.name ∧ last.span.stop = span.start
    · -- the sink compares severities, too, but here they follow from the names
      have hmerge : last.continuedBy (ParseError.extraCloseTag.entry span) = true := by
        have hseverity := (hgraded last hmem).severity_eq hmeets.1
        simp [Diagnostic.continuedBy, ParseError.entry, hmeets, hseverity, ParseError.severity]
      have hcover : last.span.cover span = ⟨last.span.start, span.stop⟩ := by
        have hlast := hordered last hmem
        have hstop := hmeets.2
        simp only [Span.cover, Span.mk.injEq]
        omega
      refine .merged hentries hmeets.1 hmeets.2 ?_
      rw [entries, push, hnewest]
      dsimp only
      rw [if_pos hmerge, List.reverse_cons]
      exact congrArg (fun span => older.reverse ++ [{ last with span }]) hcover
    · refine .apart (fun older' last' hlast => ?_) (entries_push fun last' hlast => ?_)
      · rw [hentries] at hlast
        obtain ⟨_, heq⟩ := List.append_inj' hlast rfl
        exact List.singleton_inj.1 heq ▸ hmeets
      · obtain rfl : last = last' := by simpa [last?, hnewest] using hlast
        refine Bool.eq_false_iff.2 fun hmerge => hmeets ?_
        simp only [Diagnostic.continuedBy, Bool.and_eq_true, beq_iff_eq] at hmerge
        exact ⟨hmerge.1.1, hmerge.2⟩

end Diagnostics

namespace Draft

variable {text : Text} {d d' : Draft} {t : Token} {data : NodeData} {stop : Nat}

/-- All that has been reported has the severity that belongs to its name. -/
def Graded (d : Draft) : Prop := d.diagnostics.Graded

theorem Graded.reportLexical (h : d.Graded) (error : LexError) (span : Span) :
    (d.reportLexical error span).Graded :=
  Diagnostics.Graded.push h (.inr ⟨error, rfl, rfl⟩)

/-- **Every rule reports under the right severity.** -/
theorem Graded.reports {faults : List ParseError} (h : d.Graded) (hr : d.Reports faults d') :
    d'.Graded :=
  Diagnostics.Graded.adds h hr

theorem Graded.takeToken (h : d.Graded) : (d.takeToken t).Graded := by
  have hbuild := h.reports (d.reports_build t)
  unfold Draft.takeToken
  split
  · exact hbuild.reportLexical _ _
  · exact hbuild

/-- What is wrong with a token is reported after what the token does. -/
theorem diagnostics_takeToken (d : Draft) (t : Token) :
    (d.takeToken t).diagnostics = (d.build t).diagnostics.extend t.faults := by
  unfold Draft.takeToken Token.faults
  cases t.error <;> rfl

end Draft

/-! ## Closing an element -/

/-- The node is an element of the name, in which case does not matter. -/
def Tree.HasName (t : Tree) (name : Text) (i : NodeId) : Prop :=
  ∃ e, t.data i = .element e ∧ equalIgnoringCase e.tag name = true

/-- The open nodes, the innermost first. -/
def Draft.openNodes (d : Draft) : List NodeId := d.current :: d.tree.ancestors d.current

/-- **An end tag closes an element.** It begins at `start` and ends at `stop`, `target` is the
element, and `below` are the open nodes below it, the innermost first. -/
structure Draft.ClosesElement (name : Text) (start stop : Nat) (below : List NodeId)
    (target : NodeId) (d d' : Draft) : Prop where
  path : d.openNodes = below ++ target :: d.tree.ancestors target
  named : d.tree.HasName name target
  nearest : ∀ i ∈ below, ¬ d.tree.HasName name i
  /-- The parent of the element is open from then on. -/
  current : d.tree.parent target = some d'.current
  /-- The element ends where the tag ends. -/
  closed : ∃ e, d.tree.data target = .element e ∧
    d'.tree.node target = { d.tree.node target with
      data := .element { e with endTagStart := some start },
      span := ⟨(d.tree.span target).start, stop⟩ }
  /-- The elements below it end where the tag begins, and their start tags are reported. -/
  skipped : ∀ i ∈ below, ∃ e st, d.tree.data i = .element e ∧ e.startTagEnd = some st ∧
    d'.tree.node i = { d.tree.node i with
      data := .element { e with endTagStart := some start },
      span := ⟨(d.tree.span i).start, start⟩ } ∧
    d'.tree.complaint i = ParseError.tagUnclosed.entry ⟨(d.tree.span i).start, st⟩
  /-- The parent covers the element. -/
  grown : d'.tree.node d'.current = { d.tree.node d'.current with
    span := (d.tree.span d'.current).growTo stop }
  others : ∀ i, i ∉ below → i ≠ target → i ≠ d'.current → d'.tree.node i = d.tree.node i
  size : d'.tree.size = d.tree.size
  /-- All nodes stay what and where they are. -/
  frame : ∀ i, d'.tree.kind i = d.tree.kind i ∧ d'.tree.children i = d.tree.children i ∧
    d'.tree.parent i = d.tree.parent i

namespace Draft

variable {text name : Text} {d d' d₁ : Draft} {ts : List Token} {start stop : Nat}
  {below left : List Nat} {target i : NodeId}

theorem ClosesElement.congr {d₂ d₂' : Draft}
    (h : d.ClosesElement name start stop below target d') (htree : d₂.tree = d.tree)
    (hcurrent : d₂.current = d.current) (htree' : d₂'.tree = d'.tree)
    (hcurrent' : d₂'.current = d'.current) :
    d₂.ClosesElement name start stop below target d₂' := by
  obtain ⟨path, named, nearest, current, closed, skipped, grown, others, size, frame⟩ := h
  rw [openNodes, ← htree, ← hcurrent] at path
  rw [← htree] at named nearest
  rw [← htree, ← hcurrent'] at current
  rw [← htree, ← htree'] at closed skipped size frame
  rw [← htree, ← htree', ← hcurrent'] at grown others
  exact ⟨path, named, nearest, current, closed, skipped, grown, others, size, frame⟩

theorem openElement?_eq_none (h : d.openElement? name = none) :
    ∀ i ∈ d.openNodes, ¬ d.tree.HasName name i := by
  rintro i hi ⟨e, hdata, hsame⟩
  have hnone := List.find?_eq_none.1 h i hi
  simp [hdata, hsame] at hnone

/-- What is found behind a list is not found in it. -/
theorem find?_eq_false {p : Nat → Bool} {l l' : List Nat} {a : Nat}
    (h : (l ++ l').find? p = some a) (hnot : a ∉ l) : ∀ b ∈ l, p b = false := by
  rw [List.find?_append] at h
  cases hl : l.find? p with
  | none => exact fun b hb => by simpa using List.find?_eq_none.1 hl b hb
  | some c =>
    rw [hl, Option.some_or, Option.some.injEq] at h
    exact absurd (h ▸ List.mem_of_find?_eq_some hl) hnot

/-- **The element is the nearest one.** -/
theorem Descends.nearest (h : d.Descends stop below d')
    (hfind : d.openElement? name = some d'.current) :
    ∀ i ∈ below, ¬ d.tree.HasName name i := by
  rintro i hi ⟨e, hdata, hsame⟩
  -- the search goes the way that the run has gone, and it has not stopped before
  rw [openElement?, h.path] at hfind
  have hnone := find?_eq_false hfind (fun hmem => Nat.lt_irrefl _ (h.newer _ hmem)) i hi
  simp [hdata, hsame] at hnone

/-- On the way only ends change, and what is known of elements. -/
theorem Descends.frame (h : d.Descends stop below d') (i : Nat) :
    d'.tree.kind i = d.tree.kind i ∧ d'.tree.children i = d.tree.children i ∧
      d'.tree.parent i = d.tree.parent i := by
  unfold Tree.kind Tree.data Tree.children Tree.parent
  by_cases hi : i ∈ below
  · rw [h.closed i hi]
    exact ⟨NodeData.kind_endedAt, rfl, rfl⟩
  by_cases hlast : i = d'.current
  · obtain ⟨stop', hnode⟩ := h.last
    rw [hlast, hnode]
    exact ⟨rfl, rfl, rfl⟩
  · rw [h.others i hi hlast]
    exact ⟨rfl, rfl, rfl⟩

/-- What is on the way is open. -/
theorem Descends.under (h : d.Descends stop below d') (hshape : d.tree.Shape d.current)
    (hi : i ∈ below) : d.tree.Under d.current i := by
  have hmem : i ∈ d.current :: d.tree.ancestors d.current :=
    h.path ▸ List.mem_append_left _ hi
  rcases List.mem_cons.1 hmem with rfl | hmem
  · exact .refl _ _
  · exact Tree.under_of_mem_ancestors hshape hmem

theorem Abandoned.spares (h : Abandoned text stop below d d') : d.Spares d' :=
  h.keeps (P := fun d' => d.Spares d') (.refl d) fun _ _ step hspares =>
    hspares.trans (step.spares step.before.shape)

/-- **What is closed on the way is reported**, one entry for each node. -/
theorem Abandoned.entries (h : Abandoned text stop below d d') (hledger : d.Ledger text ts left)
    (htags : d.TagsWithin stop)
    (hnested : ∀ i, d.tree.Under d.current i → d.tree.kind i = .element ∨ i = Tree.root) :
    d'.diagnostics.entries = d.diagnostics.entries ++ below.map d'.tree.complaint := by
  -- the ledger, which says that entries do not meet, is carried from step to step
  induction h generalizing left with
  | nil d => simp
  | @cons d d₁ d' below step rest ih =>
    have hshape := step.before.shape
    have helement : d.currentKind = .element :=
      (hnested d.current (.refl _ _)).resolve_right (step.before.ne_root_of_parent step.parent)
    have hstructural : d.currentKind.isStructural = true := by
      rw [helement]
      rfl
    have hrest := ih (hledger.abandons step htags fun hother => absurd helement hother)
      (htags.abandons step) fun i hi => by
        rw [step.kind_eq NodeData.kind_endedAt]
        exact hnested i ((step.under_iff hshape).1 hi).2
    have hone : d₁.diagnostics.entries
        = d.diagnostics.entries ++ [d₁.tree.complaint d.current] := by
      rw [step.diagnostics, if_pos hstructural]
      exact Diagnostics.entries_push (Diagnostics.continuedBy_of_apart
        Diagnostic.byName_isUnclosed Node.isUnclosed_complaint
        (hledger.apart_of_abandons step hstructural))
    -- what is closed first stays as it is
    have hsame : d'.tree.complaint d.current = d₁.tree.complaint d.current := by
      have hclosed : d₁.Closed d.current := (step.closed_iff hshape).2 (.inl rfl)
      rw [Tree.complaint, (rest.spares d.current hclosed).2]
      rfl
    rw [hrest, hone, List.map_cons, hsame, List.append_assoc]
    rfl

/-- What becomes of an element that is closed on the way. -/
theorem abandoned_element {n : Node} {e : Element} {st : Nat} (hdata : n.data = .element e)
    (hst : e.startTagEnd = some st) (hstart : n.span.start ≤ stop) :
    n.abandoned stop = { n with
      data := .element { e with endTagStart := some stop }, span := ⟨n.span.start, stop⟩ } := by
  rw [Node.abandoned, hdata, NodeData.endedAt_element, hst, Nat.max_eq_left hstart]
  simp only [Option.getD_some]

/-- **What becomes of the elements below.** -/
theorem Descends.skipped (h : d.Descends stop below d') (hlaid : d.Laid text stop)
    (hbegun : ∀ i e, d.tree.Under d.current i → (d.tree.data i).element? = some e →
      e.startTagEnd ≠ none)
    (hnested : ∀ i, d.tree.Under d.current i → d.tree.kind i = .element ∨ i = Tree.root)
    (hi : i ∈ below) :
    ∃ e st, d.tree.data i = .element e ∧ e.startTagEnd = some st ∧
      d'.tree.node i = { d.tree.node i with
        data := .element { e with endTagStart := some stop },
        span := ⟨(d.tree.span i).start, stop⟩ } := by
  have hunder := h.under hlaid.shape hi
  have hne : i ≠ Tree.root := Nat.ne_of_gt (Nat.lt_of_le_of_lt (Nat.zero_le _) (h.newer i hi))
  obtain ⟨e, hdata⟩ := exists_element (d := { d with current := i })
    ((hnested i hunder).resolve_right hne)
  obtain ⟨st, hst⟩ := Option.ne_none_iff_exists'.1
    (hbegun i e hunder (NodeData.element?_eq_some.2 hdata))
  refine ⟨e, st, hdata, hst, ?_⟩
  rw [h.closed i hi]
  exact abandoned_element hdata hst (hlaid.start_le i)

/-- **An element is closed with all that is open below it.** -/
theorem closesElement_of_descends {e : Element} (hlaid : d.Laid text start)
    (hbelow : d.Descends start below d₁) (hshape₁ : d₁.tree.Shape d₁.current)
    (hdata₁ : d₁.currentData = .element e)
    (hleaves : d₁.Leaves (.element { e with endTagStart := some start }) stop d')
    (hle : start ≤ stop) (hfind : d.openElement? name = some d₁.current)
    (hbegun : ∀ i e, d.tree.Under d.current i → (d.tree.data i).element? = some e →
      e.startTagEnd ≠ none)
    (hnested : ∀ i, d.tree.Under d.current i → d.tree.kind i = .element ∨ i = Tree.root) :
    d.ClosesElement name start stop below d₁.current d' := by
  obtain ⟨stop', hlast⟩ := hbelow.last
  have hdata : d.tree.data d₁.current = .element e := by
    rw [currentData, Tree.data, hlast] at hdata₁
    exact hdata₁
  have hparent : d'.current < d₁.current := hshape₁.parent_lt hleaves.parent
  have hup : d'.current ∉ below := fun hmem =>
    absurd (Nat.lt_trans hparent (hbelow.newer _ hmem)) (Nat.lt_irrefl _)
  have hstart (i : Nat) : max stop (d.tree.span i).start = stop :=
    Nat.max_eq_left (Nat.le_trans (hlaid.start_le i) hle)
  have hspan : (d₁.tree.span d₁.current).start = (d.tree.span d₁.current).start := by
    rw [Tree.span, hlast]
  have hkind : (NodeData.element { e with endTagStart := some start }).kind = d₁.currentKind :=
    (Tree.kind_of_data hdata₁).symm
  have hothers (i : Nat) (hi : i ≠ d₁.current) (hi' : i ≠ d'.current) :
      d'.tree.node i = d₁.tree.node i :=
    hleaves.others i hi hi'
  -- what the run has left of the element and of its parent is what the last step finds
  refine ⟨hbelow.path, ?_, hbelow.nearest hfind, ?_, ⟨e, hdata, ?_⟩, fun i hi => ?_, ?_,
    fun i hi htarget hi' => ?_, hleaves.size.trans hbelow.size, fun i => ?_⟩
  · obtain ⟨_, hnamed⟩ := openElement?_eq_some hlaid.shape hfind
    exact hnamed
  · rw [← (hbelow.frame d₁.current).2.2]
    exact hleaves.parent
  · rw [hleaves.shut, hspan, hstart, hlast]
  · obtain ⟨e', st, hdata', hst, hnode⟩ := hbelow.skipped hlaid hbegun hnested hi
    rw [← hothers i (Nat.ne_of_gt (hbelow.newer i hi)) fun heq => hup (heq ▸ hi)] at hnode
    refine ⟨e', st, hdata', hst, hnode, ?_⟩
    have hclosed : d'.tree.data i = .element { e' with endTagStart := some start } := by
      rw [Tree.data, hnode]
    have hentry := Tree.complaint_element hclosed hst
    rw [hentry, Tree.span, hnode]
  · have hnode : d₁.tree.node d'.current = d.tree.node d'.current :=
      hbelow.others _ hup (Nat.ne_of_lt hparent)
    rw [hleaves.grown, hspan, hstart, hnode, Tree.span, hnode]
    rfl
  · exact (hothers i htarget hi').trans (hbelow.others i hi htarget)
  · obtain ⟨hkinds, hchildren, hparents⟩ := hbelow.frame i
    exact ⟨(hleaves.kind_eq hkind i).trans hkinds, (hleaves.children_eq i).trans hchildren,
      (hleaves.parent_eq i).trans hparents⟩

/-! ## The last bracket -/

/-- The last bracket of an end tag that has a name, where no open element has it. -/
theorem endTagClose_of_none (stop : Nat) (hname : d.endTagName = some name)
    (hnone : ∀ i ∈ d.openNodes, ¬ d.tree.HasName name i) :
    (d.endTagClose stop).tree = d.tree ∧ (d.endTagClose stop).current = d.current ∧
      (d.endTagClose stop).diagnostics
        = d.diagnostics.push (ParseError.extraCloseTag.entry ⟨d.endTagStart, stop⟩) := by
  have hfind : ({ d with endTagName := none } : Draft).openElement? name = none := by
    refine List.find?_eq_none.2 fun i hi hfound => hnone i hi ?_
    split at hfound
    · next e hdata => exact ⟨e, hdata, hfound⟩
    · simp at hfound
  simp only [endTagClose, hname, hfind]
  exact ⟨rfl, rfl, rfl⟩

/-- **The last bracket of an end tag that has a name**, where an open element has it. -/
theorem exists_closesElement {pos : Nat} (hlaid : d.Laid text d.endTagStart)
    (hle : d.endTagStart ≤ stop) (hname : d.endTagName = some name)
    (hsome : ∃ i ∈ d.openNodes, d.tree.HasName name i) (hbooked : d.Booked text ts pos)
    (htags : d.TagsWithin d.endTagStart)
    (hbegun : ∀ i e, d.tree.Under d.current i → (d.tree.data i).element? = some e →
      e.startTagEnd ≠ none)
    (hnested : ∀ i, d.tree.Under d.current i → d.tree.kind i = .element ∨ i = Tree.root) :
    ∃ below target,
      d.ClosesElement name d.endTagStart stop below target (d.endTagClose stop) ∧
        (d.endTagClose stop).diagnostics.entries
          = d.diagnostics.entries ++ below.map (d.endTagClose stop).tree.complaint := by
  have hread : ({ d with endTagName := none } : Draft).Laid text d.endTagStart :=
    hlaid.of_tree rfl rfl
  -- the name is taken out of the draft first, which nothing else depends on
  have hbefore : d.Retains Tree.NoNode { d with endTagName := none } := retains_of_tree rfl rfl rfl
  obtain ⟨left, hledger, _⟩ := hbooked.keeps hlaid.shape hbefore.toHolds
  cases hfind : ({ d with endTagName := none } : Draft).openElement? name with
  | none =>
    obtain ⟨i, hi, hnamed⟩ := hsome
    exact absurd hnamed (openElement?_eq_none hfind i hi)
  | some target =>
    have hclose : d.endTagClose stop = ((closeDownTo target d.endTagStart d.tree.size
        { d with endTagName := none }).setEndTagStart target d.endTagStart).close stop := by
      simp only [endTagClose, hname, hfind]
    obtain ⟨below, e, d₁, habandoned, rfl, hdata, _, hleaves⟩ :=
      exists_leaves_closeDownTo hread hfind stop
    rw [← show d.endTagClose stop = _ from hclose] at hleaves
    have hlaid₁ : d₁.Laid text d.endTagStart :=
      habandoned.keeps (P := fun d' => d'.Laid text d.endTagStart) hread
        fun _ _ step _ => step.after
    have hdescends := habandoned.descends hread.shape
    have hcloses := closesElement_of_descends hread hdescends hlaid₁.shape hdata hleaves hle hfind
      hbegun hnested
    refine ⟨below, d₁.current, { hcloses with }, ?_⟩
    rw [hleaves.quiet, habandoned.entries hledger htags hnested]
    refine congrArg _ (List.map_congr_left fun i hi => ?_)
    -- the last step is about the element, and about what is above it
    have hnewer := hdescends.newer i hi
    have hup := hlaid₁.shape.parent_lt hleaves.parent
    rw [Tree.complaint, Tree.complaint, hleaves.others i (Nat.ne_of_gt hnewer)
      (Nat.ne_of_gt (Nat.lt_trans hup hnewer))]

/-! ## The tokens in front of it -/

theorem leaveAttribute_eq (h : d.currentKind = .root ∨ d.currentKind = .element) :
    d.leaveAttribute = d := by
  have hkind : d.currentData.kind = .root ∨ d.currentData.kind = .element := h
  unfold leaveAttribute
  cases hdata : d.currentData <;> rw [hdata] at hkind <;> simp [NodeData.kind] at hkind ⊢

/-- The draft is the same, but for what is reported. -/
structure SameButReports (d d' : Draft) : Prop where
  tree : d'.tree = d.tree
  current : d'.current = d.current
  endTagStart : d'.endTagStart = d.endTagStart
  endTagName : d'.endTagName = d.endTagName

theorem sameButReports_takeToken (d : Draft) (t : Token) :
    (d.build t).SameButReports (d.takeToken t) := by
  obtain ⟨htree, hcurrent, hstart, hname⟩ := RawElement.takeToken_same d t
  exact ⟨htree, hcurrent, hstart, hname⟩

/-- Space and strays are only reported. -/
theorem sameButReports_idle (hts : ∀ x ∈ ts, x.kind = .whitespace ∨ x.kind = .unknown) :
    ∀ d : Draft, d.SameButReports (ts.foldl takeToken d) := by
  induction ts with
  | nil => exact fun d => ⟨rfl, rfl, rfl, rfl⟩
  | cons t ts ih =>
    intro d
    obtain ⟨htree, hcurrent, hstart, hname⟩ :=
      ih (fun x hx => hts x (List.mem_cons_of_mem _ hx)) (d.takeToken t)
    obtain ⟨htree', hcurrent', hstart', hname'⟩ := sameButReports_takeToken d t
    rw [TemplateArtifact.build_of_idle (hts t List.mem_cons_self)] at *
    exact ⟨htree.trans htree', hcurrent.trans hcurrent', hstart.trans hstart',
      hname.trans hname'⟩

/-- **Up to its last bracket** an end tag leaves the tree alone. -/
theorem foldl_of_isEndTag {tag : List Token} (htag : IsEndTag tag start name)
    (hcurrent : d.currentKind = .root ∨ d.currentKind = .element) :
    (tag.foldl takeToken d).tree = d.tree ∧ (tag.foldl takeToken d).current = d.current ∧
      (tag.foldl takeToken d).endTagStart = start ∧
      (tag.foldl takeToken d).endTagName = some name := by
  obtain ⟨o, between, n, behind, rfl, hopen, hnamed, hidle, rfl, rfl⟩ := htag
  have hbetween := sameButReports_idle
    (fun x hx => hidle x (List.mem_append_left _ hx)) (d.takeToken o)
  have hbehind := sameButReports_idle (fun x hx => hidle x (List.mem_append_right _ hx))
    ((between.foldl takeToken (d.takeToken o)).takeToken n)
  have hfirst := sameButReports_takeToken d o
  have hname := sameButReports_takeToken (between.foldl takeToken (d.takeToken o)) n
  simp only [build, hopen, endTagOpen, leaveAttribute_eq hcurrent] at hfirst
  simp only [build, hnamed, endTagNamed] at hname
  rw [List.foldl_append, List.foldl_cons, List.foldl_cons]
  refine ⟨?_, ?_, ?_, ?_⟩
  · rw [hbehind.tree, hname.tree, hbetween.tree, hfirst.tree]
  · rw [hbehind.current, hname.current, hbetween.current, hfirst.current]
  · rw [hbehind.endTagStart, hname.endTagStart, hbetween.endTagStart, hfirst.endTagStart]
  · rw [hbehind.endTagName, hname.endTagName]

/-! ## The place of an end tag -/

/-- **The place of a token.** In front of each token but the last one the draft is abreast of a
scanner that reads the token next, and what each token keeps holds there. -/
theorem Abreast.before_token {P : Draft → List Token → Nat → Prop}
    (step : ∀ {s d ts}, d.Abreast text s ts → s.rest ≠ [] → P d ts (d.reach s) →
      P (d.takeToken s.scan.1) (ts ++ [s.scan.1]) ((d.takeToken s.scan.1).reach s.scan.2))
    {t : Token} {rest : List Token} (hkind : t.kind ≠ .eos) (front : List Token) :
    ∀ {s d ts fuel}, d.Abreast text s ts → P d ts (d.reach s) →
      s.tokensIn fuel = front ++ t :: rest →
      ∃ s', (front.foldl takeToken d).Abreast text s' (ts ++ front) ∧
        P (front.foldl takeToken d) (ts ++ front) ((front.foldl takeToken d).reach s') ∧
        s'.dialect = s.dialect ∧ s'.rest ≠ [] ∧ s'.scan.1 = t := by
  induction front with
  | nil =>
    intro s d ts fuel h hP htokens
    obtain ⟨hscan, hrest, _⟩ := Scanner.tokensIn_eq_cons htokens (.inl hkind)
    rw [List.append_nil]
    exact ⟨s, h, hP, rfl, hrest, hscan⟩
  | cons first front ih =>
    intro s d ts fuel h hP htokens
    obtain ⟨rfl, hrest, fuel', htokens'⟩ := Scanner.tokensIn_eq_cons htokens (.inr (by simp))
    have hnext := ih (h.scan hrest) (step h hrest hP) htokens'
    rw [s.scan_dialect, List.append_assoc] at hnext
    exact hnext

/-- The draft of a template behind some of its tokens. -/
def behind (text : Text) (ts : List Token) : Draft :=
  ts.foldl takeToken (Draft.start .template text)

/-- The tokens of a template: where each of them is read. -/
theorem exists_abreast_behind {t : Token} {front rest : List Token} (hkind : t.kind ≠ .eos)
    (htokens : tokenize .template text = front ++ t :: rest) :
    ∃ s, (behind text front).Abreast text s front ∧
      (behind text front).Recorded text front ((behind text front).reach s) ∧
      (behind text front).Graded ∧ s.dialect = .template ∧ s.rest ≠ [] ∧ s.scan.1 = t := by
  obtain ⟨s, h, ⟨hrecorded, hgraded⟩, hdialect, hrest, hscan⟩ :=
    Abreast.before_token (P := fun d ts pos => d.Recorded text ts pos ∧ d.Graded)
      (fun h hrest hP => ⟨h.recorded hrest hP.1, hP.2.takeToken⟩) hkind front
      (abreast_start .template text)
      ⟨recorded_start .template text, fun _ hx => absurd hx List.not_mem_nil⟩ htokens
  exact ⟨s, h, hrecorded, hgraded, hdialect, hrest, hscan⟩

theorem Abreast.endTagStart_le {s : Scanner} (h : d.Abreast text s ts) (hin : s.memory.InEndTag) :
    d.endTagStart ≤ s.scan.1.span.stop := by
  have hspan := s.scan_span
  have hstop : s.scan.1.span.stop = s.scan.2.offset := by rw [hspan.1]
  have hlt := (h.endTag hin).2
  omega

/-- **An end tag that closes an element.** -/
theorem Abreast.closesElement {s : Scanner} (h : d.Abreast text s ts) (hrest : s.rest ≠ [])
    (hkind : s.scan.1.kind = .endTagClose) (hrecorded : d.Recorded text ts (d.reach s))
    (hname : d.endTagName = some name) (hsome : ∃ i ∈ d.openNodes, d.tree.HasName name i) :
    ∃ below target, d.ClosesElement name d.endTagStart s.scan.1.span.stop below target
        (d.takeToken s.scan.1) ∧
      ∃ reported : Diagnostics, reported.entries = d.diagnostics.entries ++
          below.map (d.takeToken s.scan.1).tree.complaint ∧
        (d.takeToken s.scan.1).diagnostics = reported.extend s.scan.1.faults := by
  obtain ⟨hin, _⟩ := h.leaves_endTag hrest hkind
  have htemplate := h.template hrest (by rw [hkind]; rfl)
  have hbuild : d.build s.scan.1 = d.endTagClose s.scan.1.span.stop := by
    simp only [build, hkind]
  have hle := h.endTagStart_le hin
  have hlaid := h.laid
  have htags := hrecorded.landmarked.tagsWithin (Nat.le_refl _)
  rw [reach_of_inEndTag hin] at hlaid htags
  obtain ⟨htree, hcurrent, _⟩ := RawElement.takeToken_same d s.scan.1
  obtain ⟨below, target, hcloses, hentries⟩ := exists_closesElement hlaid hle hname hsome
    hrecorded.booked htags (fun i e hi he => (h.begun hrest (.inl hkind)).of_under hi he)
    fun i hi => h.nested htemplate hin hi
  rw [← hbuild] at hcloses hentries
  refine ⟨below, target, hcloses.congr rfl rfl htree hcurrent, _, ?_, diagnostics_takeToken d _⟩
  rw [htree]
  exact hentries

/-- **An end tag that closes nothing.** -/
theorem Abreast.extraEndTag {s : Scanner} (h : d.Abreast text s ts) (hrest : s.rest ≠ [])
    (hkind : s.scan.1.kind = .endTagClose) (hgraded : d.Graded)
    (hname : d.endTagName = some name) (hnone : ∀ i ∈ d.openNodes, ¬ d.tree.HasName name i) :
    (d.takeToken s.scan.1).tree = d.tree ∧ (d.takeToken s.scan.1).current = d.current ∧
      ∃ reported : Diagnostics, d.diagnostics.Reports
          (ParseError.extraCloseTag.entry ⟨d.endTagStart, s.scan.1.span.stop⟩) reported ∧
        (d.takeToken s.scan.1).diagnostics = reported.extend s.scan.1.faults := by
  obtain ⟨hin, _⟩ := h.leaves_endTag hrest hkind
  have hbuild : d.build s.scan.1 = d.endTagClose s.scan.1.span.stop := by
    simp only [build, hkind]
  have hle := h.endTagStart_le hin
  obtain ⟨htree, hcurrent, _⟩ := RawElement.takeToken_same d s.scan.1
  obtain ⟨hsame, hopen, hdiagnostics⟩ := endTagClose_of_none s.scan.1.span.stop hname hnone
  rw [htree, hcurrent, diagnostics_takeToken, hbuild, hdiagnostics]
  exact ⟨hsame, hopen, _, Diagnostics.reports_push hgraded
    (fun y hy => (h.sits.aligned.reported y hy).ordered) hle, rfl⟩

/-- **What an end tag does** behind the tokens `front`. It begins at `start` with the tokens `tag`,
the last bracket is `c`, and `name` is its name. -/
structure EndTagEffect (text : Text) (front tag : List Token) (c : Token) (start : Nat)
    (name : Text) : Prop where
  /-- In front of the last bracket nothing happens to the tree. -/
  before : (behind text (front ++ tag)).tree = (behind text front).tree ∧
    (behind text (front ++ tag)).current = (behind text front).current
  /-- An open element of the name is closed, with what is open below it. -/
  closes : (∃ i ∈ (behind text front).openNodes, (behind text front).tree.HasName name i) →
    ∃ below target, (behind text front).ClosesElement name start c.span.stop below target
        (behind text (front ++ tag ++ [c])) ∧
      ∃ reported : Diagnostics, reported.entries
          = (behind text (front ++ tag)).diagnostics.entries ++
            below.map (behind text (front ++ tag ++ [c])).tree.complaint ∧
        (behind text (front ++ tag ++ [c])).diagnostics = reported.extend c.faults
  /-- If there is none, all that happens is that the end tag is reported. -/
  extra : (∀ i ∈ (behind text front).openNodes, ¬ (behind text front).tree.HasName name i) →
    (behind text (front ++ tag ++ [c])).tree = (behind text front).tree ∧
      (behind text (front ++ tag ++ [c])).current = (behind text front).current ∧
      ∃ reported : Diagnostics, (behind text (front ++ tag)).diagnostics.Reports
          (ParseError.extraCloseTag.entry ⟨start, c.span.stop⟩) reported ∧
        (behind text (front ++ tag ++ [c])).diagnostics = reported.extend c.faults

end Draft

/-- **Every end tag that has a name**, wherever it stands in a template, closes the nearest open
element of its name, or is reported. -/
theorem Parse.end_tag_effect {text : Text} {front tag rest : List Token} {c : Token} {start : Nat}
    {name : Text} (htokens : tokenize .template text = front ++ tag ++ c :: rest)
    (htag : IsEndTag tag start name) (hclose : c.kind = .endTagClose) :
    Draft.EndTagEffect text front tag c start name := by
  obtain ⟨s, habreast, hrecorded, hgraded, _, hrest, rfl⟩ :=
    Draft.exists_abreast_behind (by simp [hclose]) htokens
  -- no attribute is open in front of an end tag, so its first bracket leaves none
  have hcurrent : (Draft.behind text front).currentKind = .root ∨
      (Draft.behind text front).currentKind = .element := by
    obtain ⟨o, between, n, after, rfl, hopen, _⟩ := htag
    have htokens₀ : tokenize .template text
        = front ++ o :: (between ++ n :: after ++ s.scan.1 :: rest) := by
      rw [htokens]
      simp
    obtain ⟨s₀, h₀, _, _, _, _, rfl⟩ :=
      Draft.exists_abreast_behind (by simp [hopen]) htokens₀
    have hexpects := h₀.attuned.expects
    rwa [hopen] at hexpects
  have hbehind : Draft.behind text (front ++ tag)
      = tag.foldl Draft.takeToken (Draft.behind text front) := List.foldl_append
  have hafter : Draft.behind text (front ++ tag ++ [s.scan.1])
      = (Draft.behind text (front ++ tag)).takeToken s.scan.1 := List.foldl_append
  obtain ⟨htree, hopen, hstart, hname⟩ := Draft.foldl_of_isEndTag htag hcurrent
  rw [← hbehind] at htree hopen hstart hname
  have hnodes : (Draft.behind text (front ++ tag)).openNodes
      = (Draft.behind text front).openNodes := by
    rw [Draft.openNodes, htree, hopen]
    rfl
  refine ⟨⟨htree, hopen⟩, fun hsome => ?_, fun hnone => ?_⟩
  · rw [← hnodes, ← htree] at hsome
    obtain ⟨below, target, hcloses, hreported⟩ :=
      habreast.closesElement hrest hclose hrecorded hname hsome
    rw [hafter]
    rw [hstart] at hcloses
    exact ⟨below, target, hcloses.congr htree.symm hopen.symm rfl rfl, hreported⟩
  · rw [← hnodes, ← htree] at hnone
    have hextra := habreast.extraEndTag hrest hclose hgraded hname hnone
    rw [hafter]
    rwa [htree, hopen, hstart] at hextra

/-- The end tag of a paragraph in which bold text is not closed. -/
theorem Parse.end_tag_effect_skipping :
    let text := "<p><b>x</p>".toList
    let front := (tokenize .template text).take 7
    let tag : List Token :=
      [⟨.endTagOpen, ⟨7, 9⟩, "</".toList, none⟩, ⟨.endTag, ⟨9, 10⟩, "p".toList, none⟩]
    let c : Token := ⟨.endTagClose, ⟨10, 11⟩, ">".toList, none⟩
    tokenize .template text = front ++ tag ++ c :: [⟨.eos, ⟨11, 11⟩, [], none⟩] ∧
      IsEndTag tag 7 "p".toList ∧ c.kind = .endTagClose ∧
      (∃ i ∈ (Draft.behind text front).openNodes,
        (Draft.behind text front).tree.HasName "p".toList i) ∧
      Draft.EndTagEffect text front tag c 7 "p".toList := by
  intro text front tag c
  have htokens : tokenize .template text
      = front ++ tag ++ c :: [⟨.eos, ⟨11, 11⟩, [], none⟩] := by
    decide +kernel
  have htag : IsEndTag tag 7 "p".toList := ⟨_, [], _, [], rfl, rfl, rfl, by simp, rfl, rfl⟩
  have hopen : 1 ∈ (Draft.behind text front).openNodes := by decide +kernel
  have hnamed : (Draft.behind text front).tree.HasName "p".toList 1 :=
    ⟨{ tag := "p".toList, startTagEnd := some 3 }, by decide +kernel, by decide +kernel⟩
  exact ⟨htokens, htag, rfl, ⟨1, hopen, hnamed⟩, Parse.end_tag_effect htokens htag rfl⟩

/-- End tags that close nothing, and meet, are one entry. -/
example :
    (Draft.behind "</i></i>".toList (tokenize .template "</i></i>".toList)).diagnostics.entries
      = [ParseError.extraCloseTag.entry ⟨0, 8⟩] := by
  decide +kernel

end HybridMarkup
