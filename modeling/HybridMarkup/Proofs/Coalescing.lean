/-
What a sink makes of the diagnostics that are pushed into it.

The sink looks at its newest entry only, and that entry may have grown since it was made. What comes
out can still be said of the pushed diagnostics alone: they fall into runs (`Diagnostic.Run`), each as
long as it can be (`Diagnostics.RunsOf`), and every entry stands for one of them. There is only one
way to cut a sequence into such runs, so this says exactly what the entries are.

Two facts carry this. Spans are not inverted, so where a run ends is where its last member does
(`Run.span_merged`); hence members are next to each other in a run just if the one meets the other
(`Run.meets`), and it makes no difference whether a diagnostic is held against the entry or against
the last member. And a run that the sink has left behind is not met by the first of the next one.

Main statement: `Diagnostics.coalesced`, for every sequence of diagnostics.
-/
import HybridMarkup.Diagnostic
import Mathlib.Data.List.Chain
import Mathlib.Data.List.Infix

set_option autoImplicit false

namespace HybridMarkup

namespace Diagnostic

/-! ## Runs -/

/-- Both say the same with the same severity, and the second begins where the first ends. -/
def Meets (d next : Diagnostic) : Prop :=
  d.name = next.name ∧ d.severity = next.severity ∧ d.span.stop = next.span.start

theorem continuedBy_iff {d next : Diagnostic} : d.continuedBy next = true ↔ d.Meets next := by
  simp only [continuedBy, Meets, Bool.and_eq_true, beq_iff_eq, and_assoc]

instance (d next : Diagnostic) : Decidable (d.Meets next) :=
  decidable_of_iff (d.continuedBy next = true) continuedBy_iff

/-- The first of some diagnostics, with the span that covers all of them. -/
def merged (first : Diagnostic) (rest : List Diagnostic) : Diagnostic :=
  { first with span := rest.foldl (fun span d => span.cover d.span) first.span }

theorem merged_snoc (first : Diagnostic) (rest : List Diagnostic) (d : Diagnostic) :
    merged first (rest ++ [d])
      = { first with span := (merged first rest).span.cover d.span } := by
  simp only [merged, List.foldl_append, List.foldl_cons, List.foldl_nil]

/-- Diagnostics of one name and one severity, each of which begins where those in front of it end.
-/
@[ext]
structure Run where
  first : Diagnostic
  rest : List Diagnostic
  carriesOn : ∀ front d back, rest = front ++ d :: back → (merged first front).Meets d

namespace Run

/-- All diagnostics of the run. -/
def members (r : Run) : List Diagnostic := r.first :: r.rest

/-- The entry that stands for the run. -/
def entry (r : Run) : Diagnostic := merged r.first r.rest

/-- The run of one diagnostic. -/
def single (d : Diagnostic) : Run := ⟨d, [], fun front _ _ h => by simp at h⟩

/-- The run with one more diagnostic. -/
def snoc (r : Run) (d : Diagnostic) (h : r.entry.Meets d) : Run where
  first := r.first
  rest := r.rest ++ [d]
  carriesOn front x back heq := by
    rcases List.eq_nil_or_concat' back with rfl | ⟨back, y, rfl⟩
    · obtain ⟨rfl, hd⟩ := List.append_inj' heq rfl
      obtain rfl : d = x := by simpa using hd
      exact h
    · refine r.carriesOn front x back ?_
      rw [← List.cons_append, ← List.append_assoc] at heq
      exact (List.append_inj' heq rfl).1

@[simp] theorem members_single (d : Diagnostic) : (single d).members = [d] := rfl

@[simp] theorem first_single (d : Diagnostic) : (single d).first = d := rfl

@[simp] theorem entry_single (d : Diagnostic) : (single d).entry = d := rfl

variable {r : Run} {d x y : Diagnostic}

@[simp] theorem members_snoc (h : r.entry.Meets d) : (r.snoc d h).members = r.members ++ [d] := rfl

@[simp] theorem first_snoc (h : r.entry.Meets d) : (r.snoc d h).first = r.first := rfl

theorem entry_snoc (h : r.entry.Meets d) :
    (r.snoc d h).entry = { r.entry with span := r.entry.span.cover d.span } :=
  merged_snoc r.first r.rest d

theorem exists_last (r : Run) : ∃ front x, r.members = front ++ [x] :=
  ⟨_, _, (List.dropLast_append_getLast (List.cons_ne_nil r.first r.rest)).symm⟩

theorem eq_of_members {r r' : Run} (h : r.members = r'.members) : r = r' := by
  obtain ⟨hfirst, hrest⟩ := List.cons.inj h
  exact Run.ext hfirst hrest

/-- No span of the run is inverted. -/
def Ordered (r : Run) : Prop := ∀ d ∈ r.members, d.span.start ≤ d.span.stop

/-- **What is covered by the first part of a run** lies between the start of its first member and
the end of its last one. -/
theorem span_merged (h : r.Ordered) {front back : List Diagnostic} (hrest : r.rest = front ++ back) :
    (merged r.first front).span
        = ⟨r.first.span.start, ((front.getLast?).getD r.first).span.stop⟩ ∧
      r.first.span.start ≤ (merged r.first front).span.stop := by
  induction front using List.reverseRecOn generalizing back with
  | nil => exact ⟨rfl, h r.first List.mem_cons_self⟩
  | append_singleton front d ih =>
    rw [List.append_assoc, List.singleton_append] at hrest
    obtain ⟨hspan, hle⟩ := ih hrest
    obtain ⟨_, _, hmeets⟩ := r.carriesOn front d back hrest
    have hd : d.span.start ≤ d.span.stop := h d (by simp [members, hrest])
    have hcover : (merged r.first (front ++ [d])).span = ⟨r.first.span.start, d.span.stop⟩ := by
      rw [merged_snoc, Span.cover, hmeets, Nat.max_eq_right hd]
      rw [show (merged r.first front).span.start = r.first.span.start by rw [hspan],
        Nat.min_eq_left (hmeets ▸ hle)]
    rw [hcover]
    exact ⟨by simp, Nat.le_trans hle (hmeets ▸ hd)⟩

/-- The first part of a run meets what its last member meets. -/
theorem merged_meets_iff (h : r.Ordered) {front back : List Diagnostic}
    (hrest : r.rest = front ++ back) :
    (merged r.first front).Meets y ↔ ((front.getLast?).getD r.first).Meets y := by
  have hlast : ((front.getLast?).getD r.first).name = r.first.name ∧
      ((front.getLast?).getD r.first).severity = r.first.severity := by
    rcases List.eq_nil_or_concat' front with rfl | ⟨front, d, rfl⟩
    · exact ⟨rfl, rfl⟩
    · have hd := r.carriesOn front d back (by rw [hrest]; simp)
      simpa using ⟨hd.1.symm, hd.2.1.symm⟩
  unfold Meets
  rw [(span_merged h hrest).1, hlast.1, hlast.2]
  rfl

theorem entry_meets_iff (h : r.Ordered) {front : List Diagnostic}
    (hmembers : r.members = front ++ [x]) : r.entry.Meets y ↔ x.Meets y := by
  have hlast : (r.rest.getLast?).getD r.first = x := by
    have hlast := congrArg List.getLast? hmembers
    simpa [members, List.getLast?_cons] using hlast
  rw [entry, merged_meets_iff h (List.append_nil r.rest).symm, hlast]

/-- What meets a run meets its first member. -/
theorem meets_entry_iff (h : r.Ordered) : d.Meets r.entry ↔ d.Meets r.first := by
  have hspan := (span_merged h (List.append_nil r.rest).symm).1
  unfold Meets
  rw [entry, hspan]
  rfl

/-- **Neighbours in a run** meet. -/
theorem meets (h : r.Ordered) (front back : List Diagnostic)
    (hmembers : r.members = front ++ x :: y :: back) : x.Meets y := by
  cases front with
  | nil =>
    obtain ⟨rfl, hrest⟩ := List.cons.inj hmembers
    exact r.carriesOn [] y back hrest
  | cons first front =>
    obtain ⟨rfl, hrest⟩ := List.cons.inj hmembers
    have hsplit : r.rest = front ++ [x] ++ y :: back := by rw [hrest]; simp
    have hmeets := (merged_meets_iff h hsplit).1 (r.carriesOn _ y back hsplit)
    simpa using hmeets

/-- The entry of a run covers all of its members. -/
theorem entry_includes (hd : d ∈ r.members) : r.entry.span.includes d.span = true := by
  have hrest (rest : List Diagnostic) (hd : d ∈ r.first :: rest) :
      (merged r.first rest).span.start ≤ d.span.start ∧
        d.span.stop ≤ (merged r.first rest).span.stop := by
    induction rest using List.reverseRecOn with
    | nil =>
      obtain rfl := List.mem_singleton.1 hd
      exact ⟨Nat.le_refl _, Nat.le_refl _⟩
    | append_singleton rest e ih =>
      rw [merged_snoc, Span.cover]
      rw [← List.cons_append, List.mem_append, List.mem_singleton] at hd
      rcases hd with hd | rfl
      · obtain ⟨hstart, hstop⟩ := ih hd
        exact ⟨Nat.le_trans (Nat.min_le_left _ _) hstart, Nat.le_trans hstop (Nat.le_max_left _ _)⟩
      · exact ⟨Nat.min_le_right _ _, Nat.le_max_right _ _⟩
  obtain ⟨hstart, hstop⟩ := hrest r.rest hd
  exact Bool.and_eq_true_iff.2 ⟨decide_eq_true hstart, decide_eq_true hstop⟩

end Run

end Diagnostic

namespace Diagnostics

open Diagnostic

variable {s : Diagnostics} {ds : List Diagnostic} {runs : List Run}

/-! ## The runs of a sequence -/

/-- A run that stands between `front` and `back` is not a part of a longer one there. -/
def IsMaximal (front : List Diagnostic) (r : Run) (back : List Diagnostic) : Prop :=
  ∀ (r' : Run) (a b : List Diagnostic), a <:+ front → b <+: back →
    r'.members = a ++ r.members ++ b → a = [] ∧ b = []

/-- The diagnostics are these runs, one behind the other, and each of them is as long as it can be.
-/
structure RunsOf (ds : List Diagnostic) (runs : List Run) : Prop where
  all : runs.flatMap Run.members = ds
  maximal : ∀ before r after, runs = before ++ r :: after →
    IsMaximal (before.flatMap Run.members) r (after.flatMap Run.members)

/-- Behind the first run there are the runs of what is left. -/
theorem RunsOf.tail {r : Run} (h : RunsOf ds (r :: runs)) :
    RunsOf (runs.flatMap Run.members) runs := by
  refine ⟨rfl, fun before q after heq r' a b ha hb => ?_⟩
  refine h.maximal (r :: before) q after (by rw [heq]; rfl) r' a b ?_ hb
  rw [List.flatMap_cons]
  exact ha.trans (List.suffix_append _ _)

/-- **There is only one way** to cut diagnostics into such runs. -/
theorem RunsOf.unique {runs' : List Run} (h : RunsOf ds runs) (h' : RunsOf ds runs') :
    runs = runs' := by
  induction runs generalizing ds runs' with
  | nil =>
    cases runs' with
    | nil => rfl
    | cons r' runs' => exact absurd (h.all.trans h'.all.symm) (by simp [Run.members])
  | cons r runs ih =>
    cases runs' with
    | nil => exact absurd (h'.all.trans h.all.symm) (by simp [Run.members])
    | cons r' runs' =>
      have hsplit : r.members ++ runs.flatMap Run.members
          = r'.members ++ runs'.flatMap Run.members := h.all.trans h'.all.symm
      -- of the two first runs neither can be longer than the other
      have hsame : r = r' := by
        rcases List.append_eq_append_iff.1 hsplit with ⟨b, hlong, hback⟩ | ⟨b, hlong, hback⟩
        · have hnil := (h.maximal [] r runs rfl r' [] b (List.suffix_refl _)
            (hback ▸ List.prefix_append _ _) hlong).2
          exact Run.eq_of_members (by rw [hlong, hnil, List.append_nil])
        · have hnil := (h'.maximal [] r' runs' rfl r [] b (List.suffix_refl _)
            (hback ▸ List.prefix_append _ _) hlong).2
          exact Run.eq_of_members (by rw [hlong, hnil, List.append_nil])
      subst hsame
      have htail := List.append_cancel_left hsplit
      rw [ih h.tail (htail ▸ h'.tail)]

/-- Runs of which none is met by the next are as long as they can be. -/
theorem runsOf_of_broken (hordered : ∀ d ∈ ds, d.span.start ≤ d.span.stop)
    (hall : runs.flatMap Run.members = ds)
    (hbroken : runs.IsChain fun r r' => ¬ r.entry.Meets r'.first) : RunsOf ds runs := by
  have hrun {q : Run} (hq : q ∈ runs) : q.Ordered := fun d hd =>
    hordered d (hall ▸ List.mem_flatMap.2 ⟨q, hq, hd⟩)
  rw [List.isChain_iff_forall_rel_of_append_cons_cons] at hbroken
  refine ⟨hall, fun before r after hruns r' a b ha hb hmembers => ?_⟩
  have hr' : r'.Ordered := fun d hd => by
    refine hordered d ?_
    rw [← hall, hruns, List.flatMap_append, List.flatMap_cons]
    rw [hmembers, List.mem_append, List.mem_append] at hd
    rcases hd with (hd | hd) | hd
    · exact List.mem_append_left _ (ha.subset hd)
    · exact List.mem_append_right _ (List.mem_append_left _ hd)
    · exact List.mem_append_right _ (List.mem_append_right _ (hb.subset hd))
  constructor
  -- what stands in front of `r` is the last member of the run before, which `r` does not carry on
  · rcases List.eq_nil_or_concat' a with rfl | ⟨a, x, rfl⟩
    · rfl
    rcases List.eq_nil_or_concat' before with rfl | ⟨older, q, rfl⟩
    · simp at ha
    obtain ⟨front, z, hq⟩ := q.exists_last
    obtain ⟨u, hu⟩ := ha
    rw [List.flatMap_append, List.flatMap_singleton, hq, ← List.append_assoc,
      ← List.append_assoc] at hu
    obtain rfl : x = z := by simpa using (List.append_inj' hu rfl).2
    have hmeets : x.Meets r.first :=
      Run.meets hr' a (r.rest ++ b) (by rw [hmembers]; simp [Run.members])
    exact absurd ((Run.entry_meets_iff (hrun (by simp [hruns])) hq).2 hmeets)
      (hbroken (show runs = older ++ q :: r :: after by rw [hruns]; simp))
  · cases b with
    | nil => rfl
    | cons y b =>
    cases after with
    | nil => simp at hb
    | cons q newer =>
    obtain ⟨u, hu⟩ := hb
    rw [List.flatMap_cons, Run.members, List.cons_append, List.cons_append] at hu
    obtain rfl := (List.cons.inj hu).1
    obtain ⟨front, x, hlast⟩ := r.exists_last
    have hmeets : x.Meets q.first :=
      Run.meets hr' (a ++ front) b (by rw [hmembers, hlast]; simp)
    exact absurd ((Run.entry_meets_iff (hrun (by simp [hruns])) hlast).2 hmeets)
      (hbroken (show runs = before ++ r :: q :: newer from hruns))

/-! ## What the sink does -/

/-- The entries stand for these runs of the diagnostics, and no run is met by the next. -/
structure Follows (s : Diagnostics) (ds : List Diagnostic) (runs : List Run) : Prop where
  all : runs.flatMap Run.members = ds
  newestFirst : s.newestFirst = (runs.map Run.entry).reverse
  broken : runs.IsChain fun r r' => ¬ r.entry.Meets r'.first

/-- **One more diagnostic** lengthens the last run, or is a run of its own. -/
theorem Follows.push (h : s.Follows ds runs) (d : Diagnostic) :
    ∃ runs', (s.push d).Follows (ds ++ [d]) runs' := by
  rcases List.eq_nil_or_concat' runs with rfl | ⟨older, r, rfl⟩
  · refine ⟨[.single d], ?_, ?_, List.isChain_singleton _⟩
    · simp [← h.all]
    · simp [Diagnostics.push, h.newestFirst]
  · have hnewest : s.newestFirst = r.entry :: (older.map Run.entry).reverse := by
      simp [h.newestFirst]
    obtain ⟨holder, _, hlast⟩ := List.isChain_append.1 h.broken
    by_cases hmeets : r.entry.Meets d
    · refine ⟨older ++ [r.snoc d hmeets], ?_, ?_, ?_⟩
      · simp [← h.all]
      · simp [Diagnostics.push, hnewest, continuedBy_iff.2 hmeets, Run.entry_snoc]
      · exact List.isChain_append.2 ⟨holder, List.isChain_singleton _, by simpa using hlast⟩
    · refine ⟨older ++ [r] ++ [.single d], ?_, ?_, ?_⟩
      · simp [← h.all]
      · have hbreak : r.entry.continuedBy d = false :=
          Bool.eq_false_iff.2 fun hmerge => hmeets (continuedBy_iff.1 hmerge)
        simp [Diagnostics.push, hnewest, hbreak]
      · refine List.isChain_append.2 ⟨h.broken, List.isChain_singleton _, ?_⟩
        simpa using hmeets

theorem exists_follows (ds : List Diagnostic) :
    ∃ runs, (ds.foldl push {}).Follows ds runs := by
  induction ds using List.reverseRecOn with
  | nil => exact ⟨[], rfl, rfl, List.isChain_nil⟩
  | append_singleton ds d ih =>
    obtain ⟨runs, h⟩ := ih
    rw [List.foldl_append]
    exact h.push d

theorem Follows.entries_eq (h : s.Follows ds runs) : s.entries = runs.map Run.entry := by
  rw [entries, h.newestFirst, List.reverse_reverse]

theorem Follows.runsOf (h : s.Follows ds runs) (hordered : ∀ d ∈ ds, d.span.start ≤ d.span.stop) :
    RunsOf ds runs :=
  runsOf_of_broken hordered h.all h.broken

/-- No entry is met by the next. -/
theorem Follows.apart (h : s.Follows ds runs) (hordered : ∀ d ∈ ds, d.span.start ≤ d.span.stop) :
    s.entries.IsChain fun e e' => ¬ e.Meets e' := by
  rw [h.entries_eq, List.isChain_map]
  refine h.broken.imp_of_mem_imp fun r r' _ hr' hmeets => ?_
  have hr'ordered : r'.Ordered := fun d hd =>
    hordered d (h.all ▸ List.mem_flatMap.2 ⟨r', hr', hd⟩)
  rwa [Run.meets_entry_iff hr'ordered]

/-- Diagnostics that do not meet each other are entries as they are. -/
theorem foldl_push_of_apart {es : List Diagnostic} (h : es.IsChain fun e e' => ¬ e.Meets e') :
    es.foldl push {} = ⟨es.reverse⟩ := by
  induction es using List.reverseRecOn with
  | nil => rfl
  | append_singleton es e ih =>
    obtain ⟨hfront, _, hlast⟩ := List.isChain_append.1 h
    rw [List.foldl_append, ih hfront, List.foldl_cons, List.foldl_nil, List.reverse_append]
    rcases List.eq_nil_or_concat' es with rfl | ⟨es, last, rfl⟩
    · rfl
    · have hbreak : last.continuedBy e = false :=
        Bool.eq_false_iff.2 fun hmerge => hlast last (by simp) e rfl (continuedBy_iff.1 hmerge)
      simp [push, hbreak]

/-! ## Where a diagnostic goes -/

/-- The run at place `k` has the diagnostic that stands behind `front`. -/
def IsIn (runs : List Run) (front : List Diagnostic) (d : Diagnostic) (k : Nat) : Prop :=
  ∃ r a b, runs[k]? = some r ∧ r.members = a ++ d :: b ∧
    front = (runs.take k).flatMap Run.members ++ a

theorem exists_isIn {front back : List Diagnostic} {d : Diagnostic}
    (h : runs.flatMap Run.members = front ++ d :: back) : ∃ k, IsIn runs front d k := by
  induction runs generalizing front with
  | nil => simp at h
  | cons r runs ih =>
    rw [List.flatMap_cons] at h
    -- either the first run ends in front of `d`, or `d` is a member of it
    have hcases : (∃ a, front = r.members ++ a ∧ runs.flatMap Run.members = a ++ d :: back) ∨
        ∃ b, r.members = front ++ d :: b := by
      rcases List.append_eq_append_iff.1 h with ⟨a, hfront, hrest⟩ | ⟨b, hfirst, hrest⟩
      · exact .inl ⟨a, hfront, hrest⟩
      · cases b with
        | nil => exact .inl ⟨[], by simpa using hfirst.symm, by simpa using hrest.symm⟩
        | cons x b =>
          obtain ⟨rfl, _⟩ := List.cons.inj hrest
          exact .inr ⟨b, hfirst⟩
    rcases hcases with ⟨a, rfl, hrest⟩ | ⟨b, hfirst⟩
    · obtain ⟨k, q, a', b, hq, hmembers, rfl⟩ := ih hrest
      exact ⟨k + 1, q, a', b, hq, hmembers, by simp⟩
    · exact ⟨0, r, front, b, rfl, hfirst, by simp⟩

/-- What stands behind `front` is in one run only. -/
theorem IsIn.unique {front : List Diagnostic} {d d' : Diagnostic} {k k' : Nat}
    (h : IsIn runs front d k) (h' : IsIn runs front d' k') : k = k' := by
  -- up to the end of the run there are more diagnostics than in `front`
  have hle {d d' : Diagnostic} {k k' : Nat} (h : IsIn runs front d k) (h' : IsIn runs front d' k') :
      k' ≤ k := by
    obtain ⟨r, a, b, hr, hmembers, hfront⟩ := h
    obtain ⟨_, a', _, _, _, hfront'⟩ := h'
    refine Nat.le_of_not_lt fun hlt => ?_
    have htake : runs.take (k + 1) <+: runs.take k' := List.take_prefix_take_left (by omega)
    obtain ⟨more, hmore⟩ := htake
    rw [← hmore, List.take_add_one, hr, hfront] at hfront'
    have hlength := congrArg List.length hfront'
    simp only [Option.toList_some, List.flatMap_append, List.flatMap_singleton, hmembers,
      List.length_append, List.length_cons] at hlength
    omega
  exact Nat.le_antisymm (hle h' h) (hle h h')

/-! ## The entries -/

/-- **The entries of a sink are the runs of what was pushed into it.** Let no span be inverted.
There is one way only to cut the diagnostics into runs that are as long as they can be, and the
entries are the first members of these, each with the span that covers its run. So no entry carries
on the one before it; every diagnostic is in one of the runs, and its span is in the span of the
entry for that run; pushed once more, the entries are the entries again; and it makes no difference
in which portions the diagnostics are reported. -/
theorem coalesced (ds : List Diagnostic) (hordered : ∀ d ∈ ds, d.span.start ≤ d.span.stop) :
    let s := ds.foldl push {}
    (∃! runs, RunsOf ds runs) ∧
      ∀ runs, RunsOf ds runs →
        s.entries = runs.map Run.entry ∧
        (s.entries.IsChain fun e e' => ¬ e.Meets e') ∧
        (∀ front d back, ds = front ++ d :: back → ∃! k, IsIn runs front d k ∧
          ∃ e, s.entries[k]? = some e ∧ e.span.includes d.span = true) ∧
        s.entries.foldl push {} = s ∧
        ∀ portions : List (List Diagnostic), portions.flatten = ds →
          portions.foldl extend {} = s := by
  intro s
  obtain ⟨runs, h⟩ := exists_follows ds
  have hruns := h.runsOf hordered
  refine ⟨⟨runs, hruns, fun runs' h' => h'.unique hruns⟩, fun runs' h' => ?_⟩
  obtain rfl : runs' = runs := h'.unique hruns
  refine ⟨h.entries_eq, h.apart hordered, fun front d back hsplit => ?_, ?_, ?_⟩
  · obtain ⟨k, hk⟩ := exists_isIn (h.all.trans hsplit)
    refine ⟨k, ⟨hk, ?_⟩, fun k' h' => h'.1.unique hk⟩
    obtain ⟨r, a, b, hr, hmembers, _⟩ := hk
    refine ⟨r.entry, ?_, Run.entry_includes (by simp [hmembers])⟩
    rw [h.entries_eq, List.getElem?_map, hr, Option.map_some]
  · rw [foldl_push_of_apart (h.apart hordered), entries, List.reverse_reverse]
  · rintro portions rfl
    exact List.foldl_flatten.symm

/-- Two spans that touch, an empty one where they end, and one that says something else. -/
theorem coalesced_touching :
    let said (name : String) (start stop : Nat) : Diagnostic :=
      { name, message := name, severity := .error, span := ⟨start, stop⟩ }
    let ds := [said "a" 3 4, said "a" 4 6, said "a" 6 6, said "b" 6 7, said "b" 7 7, said "b" 6 8]
    (∀ d ∈ ds, d.span.start ≤ d.span.stop) ∧ (∃! runs, RunsOf ds runs) ∧
      (ds.foldl push {}).entries = [said "a" 3 6, said "b" 6 7, said "b" 6 8] := by
  intro said ds
  have hordered : ∀ d ∈ ds, d.span.start ≤ d.span.stop := by decide
  exact ⟨hordered, (coalesced ds hordered).1, by decide⟩

end Diagnostics

end HybridMarkup
