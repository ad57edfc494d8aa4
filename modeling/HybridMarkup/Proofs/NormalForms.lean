/-
The algebra of normal forms of paths.

To bring a path into normal form is to walk along its components: a name is gone into, two periods
go back to where one was before, and at the root, or at the start of a relative path, there is
nothing to go back to (`Path.normalize_eq_foldl`). What is spelled in the end is nothing but names,
so no period that stands for something is left in it (`Path.components_normalForm`).

What the walk has come to is all that counts for what follows. A path that is joined to another one
may therefore be joined to its normal form instead (`Path.normalize_join`), and any number of two
periods is no more than as many steps to the parent, with the root as the end of them
(`Path.normalize_join_parents`).

Main statement: `Path.normal_forms`.
-/
import HybridMarkup.Proofs.GeneratedNames

set_option autoImplicit false

namespace HybridMarkup

open Text

/-! ## Between slashes -/

theorem Text.splitAt_append_cons (c : Char) (s t : Text) :
    splitAt c (s ++ c :: t) = splitAt c s ++ splitAt c t := by
  rw [splitAt_eq_splitOn, splitAt_eq_splitOn, splitAt_eq_splitOn]
  exact List.splitOnP_append_cons s t (beq_self_eq_true c)

namespace Component

/-- The components between the slashes of a text. -/
def ofText (t : Text) : List Component := (splitAt '/' t).filterMap ofPart?

theorem ofText_append_slash (s t : Text) : ofText (s ++ '/' :: t) = ofText s ++ ofText t := by
  rw [ofText, Text.splitAt_append_cons, List.filterMap_append]
  rfl

/-- Behind a slash at the end, or behind nothing, one can go on without another one. -/
theorem ofText_append {s : Text} (hs : s = [] ∨ s.getLast? = some '/') (t : Text) :
    ofText (s ++ t) = ofText s ++ ofText t := by
  rcases hs with rfl | hlast
  · rfl
  · obtain ⟨front, rfl⟩ := List.getLast?_eq_some_iff.1 hlast
    have hend : ofText (front ++ ['/']) = ofText front := by
      rw [ofText_append_slash]
      exact List.append_nil _
    rw [List.append_assoc, List.singleton_append, ofText_append_slash, hend]

/-- Between slashes there are two periods, and names. -/
theorem mem_ofText {c : Component} {t : Text} (h : c ∈ ofText t) :
    c = parent ∨ ∃ name, c = normal name ∧ IsName name := by
  obtain ⟨part, hpart, hcounts⟩ := List.mem_filterMap.1 h
  by_cases hperiods : part = ['.', '.']
  · subst hperiods
    left
    exact (Option.some.inj hcounts).symm
  · right
    have hnormal : ofPart? part = some (normal part) := by
      unfold ofPart? at hcounts ⊢
      split at hcounts
      · contradiction
      · rw [if_neg (by assumption), if_neg hperiods]
    refine ⟨part, ?_, hnormal, not_mem_of_mem_splitAt hpart⟩
    rw [hcounts] at hnormal
    exact Option.some.inj hnormal

end Component

namespace Path

variable {p q : Path} {names : List Text} {name : Text}

/-- What stands at the front of a path: the slash of the root, the period of a relative path, or
nothing. -/
theorem front_cases (p : Path) :
    (∃ rest, p.spelling = '/' :: rest ∧ p.front = ['/'] ∧ p.isAbsolute = true) ∨
      (∃ rest, p.spelling = '.' :: rest ∧ p.front = ['.'] ∧ p.isAbsolute = false ∧
        (rest = [] ∨ rest.head? = some '/')) ∨
      p.front = [] ∧ p.isAbsolute = false := by
  obtain ⟨spelling⟩ := p
  unfold front isAbsolute
  dsimp only
  split
  · next rest => exact .inl ⟨rest, rfl, rfl, rfl⟩
  · exact .inr (.inl ⟨[], rfl, rfl, rfl, .inl rfl⟩)
  · next rest => exact .inr (.inl ⟨'/' :: rest, rfl, rfl, rfl, .inr rfl⟩)
  · next hslash _ _ =>
    refine .inr (.inr ⟨rfl, ?_⟩)
    rw [beq_eq_false_iff_ne]
    intro hhead
    obtain ⟨rest, heq⟩ := List.head?_eq_some_iff.1 hhead
    exact hslash rest heq

theorem components_eq (p : Path) : p.components
    = p.frontComponent?.toList ++ Component.ofText (p.spelling.drop p.front.length) := rfl

/-- A relative path is spelled behind another one, and a slash comes between them where it is
needed. -/
theorem join_relative (p : Path) (hq : q.isAbsolute = false) :
    p.join q = if p.spelling = [] ∨ p.spelling.getLast? = some '/' then ⟨p.spelling ++ q.spelling⟩
      else ⟨p.spelling ++ '/' :: q.spelling⟩ := by
  unfold join
  rw [hq, if_neg Bool.false_ne_true]
  simp only [Bool.or_eq_true, decide_eq_true_eq]

theorem join_absolute (p : Path) (hq : q.isAbsolute = true) : p.join q = q := if_pos hq

/-! ## What names spell -/

theorem front_ofNames (h : ∀ name ∈ names, Component.IsName name) (isAbsolute : Bool) :
    (ofNames isAbsolute names).front = if isAbsolute then ['/'] else [] := by
  cases isAbsolute with
  | true => rfl
  | false => exact (front_spelled h).1

theorem parts_ofNames (h : ∀ name ∈ names, Component.IsName name) (isAbsolute : Bool) :
    (ofNames isAbsolute names).parts = splitAt '/' (List.intercalate ['/'] names) := by
  rw [parts, front_ofNames h]
  cases isAbsolute <;> rfl

/-- Names are read back as names, and nothing else is read. -/
theorem components_ofNames (h : ∀ name ∈ names, Component.IsName name) (isAbsolute : Bool) :
    (ofNames isAbsolute names).components
      = (if isAbsolute then [.root] else []) ++ names.map .normal := by
  rw [components, parts_ofNames h, splitAt_spelled h, frontComponent?, front_ofNames h]
  cases isAbsolute <;> rfl

/-- The parent has all names but the last one. Without names there is none. -/
theorem parent?_ofNames (h : ∀ name ∈ names, Component.IsName name) (isAbsolute : Bool) :
    (ofNames isAbsolute names).parent?
      = if names = [] then none else some (ofNames isAbsolute names.dropLast) := by
  unfold parent?
  rw [parts_ofNames h, front_ofNames h]
  by_cases hnil : names = []
  · subst hnil
    cases isAbsolute <;> rfl
  · have hparts : splitAt '/' (List.intercalate ['/'] names) = names := parts_spelled h hnil
    have hinit : ∀ name ∈ names.dropLast, Component.IsName name :=
      fun name hname => h name (List.mem_of_mem_dropLast hname)
    rw [hparts, trimParts_names h, if_neg hnil]
    obtain ⟨first, rest, rfl⟩ := List.exists_cons_of_ne_nil hnil
    dsimp only
    rw [trimParts_names hinit]
    cases isAbsolute <;> rfl

/-- What ends in a name does not end in a slash. -/
theorem getLast?_append_name (stem : Text) (hname : Component.IsName name) :
    stem ++ name ≠ [] ∧ (stem ++ name).getLast? ≠ some '/' := by
  obtain ⟨c, rest, hcons, -⟩ := hname.front
  have hne : name ≠ [] := by rw [hcons]; exact List.cons_ne_nil c rest
  refine ⟨List.append_ne_nil_of_right_ne_nil stem hne, ?_⟩
  rw [List.getLast?_append_of_ne_nil stem hne]
  intro hslash
  exact hname.free (List.mem_of_getLast? hslash)

/-- One more name is spelled behind the others. -/
theorem join_ofNames (h : ∀ name ∈ names, Component.IsName name) (isAbsolute : Bool)
    (hname : Component.IsName name) :
    (ofNames isAbsolute names).join ⟨name⟩ = ofNames isAbsolute (names ++ [name]) := by
  have hrelative : (⟨name⟩ : Path).isAbsolute = false := by
    obtain ⟨c, rest, rfl, hc, -⟩ := hname.front
    simpa [Path.isAbsolute] using hc
  rw [join_relative _ hrelative]
  rcases List.eq_nil_or_concat names with rfl | ⟨init, last, rfl⟩
  · cases isAbsolute <;> simp [ofNames]
  · rw [List.concat_eq_append] at h ⊢
    have hlast : Component.IsName last :=
      h last (List.mem_append_right _ (List.mem_singleton_self last))
    obtain ⟨stem, hstem⟩ := intercalate_append init
    have hends : ¬ ((ofNames isAbsolute (init ++ [last])).spelling = [] ∨
        (ofNames isAbsolute (init ++ [last])).spelling.getLast? = some '/') := by
      rw [ofNames]
      dsimp only
      rw [hstem, ← List.append_assoc]
      exact not_or.2 (getLast?_append_name _ hlast)
    rw [if_neg hends, ofNames, ofNames, intercalate_snoc (show init ++ [last] ≠ [] by simp),
      List.append_assoc]

/-! ## The walk along the components -/

/-- The parent, or the path itself if there is none. -/
def up (p : Path) : Path := p.parent?.getD p

/-- Where a component leads from a path. -/
def step (p : Path) : Component → Path
  | .root => p.join ⟨['/']⟩
  | .current => p
  | .parent => p.up
  | .normal name => p.join ⟨name⟩

theorem up_ofNames (h : ∀ name ∈ names, Component.IsName name) (isAbsolute : Bool) :
    (ofNames isAbsolute names).up = ofNames isAbsolute names.dropLast := by
  rw [up, parent?_ofNames h]
  split
  · next hnil =>
    subst hnil
    rfl
  · rfl

/-- **To walk along components is to resolve them.** The names that have been gone into are kept in
order, and the last of them is the one that two periods go back from. -/
theorem foldl_step (h : ∀ name ∈ names, Component.IsName name) (isAbsolute : Bool)
    {components : List Component}
    (hcomponents : ∀ c ∈ components, c ≠ .root ∧ ∀ name, c = .normal name → Component.IsName name) :
    components.foldl step (ofNames isAbsolute names)
      = ofNames isAbsolute (resolve names.reverse components).reverse := by
  induction components generalizing names with
  | nil => rw [List.foldl_nil, resolve, List.reverse_reverse]
  | cons c components ih =>
    have hrest (c' : Component) (hc' : c' ∈ components) :=
      hcomponents c' (List.mem_cons_of_mem c hc')
    obtain ⟨hroot, hnormal⟩ := hcomponents c List.mem_cons_self
    rw [List.foldl_cons]
    cases c with
    | root => exact absurd rfl hroot
    | current => exact ih h hrest
    | parent =>
      have hinit : ∀ name ∈ names.dropLast, Component.IsName name :=
        fun name hname => h name (List.mem_of_mem_dropLast hname)
      rw [step, up_ofNames h, ih hinit hrest, resolve, List.tail_reverse]
    | normal name =>
      have hname : Component.IsName name := hnormal name rfl
      have hall : ∀ other ∈ names ++ [name], Component.IsName other :=
        List.forall_mem_append.2 ⟨h, List.forall_mem_singleton.2 hname⟩
      rw [step, join_ofNames h isAbsolute hname, ih hall hrest, resolve, List.reverse_append,
        List.reverse_singleton, List.singleton_append]

/-- The front of a path takes away no name and is none. -/
theorem resolve_front (p : Path) (names : List Text) :
    resolve names p.frontComponent?.toList = names := by
  unfold frontComponent?
  rcases front_cases p with ⟨_, _, hfront, _⟩ | ⟨_, _, hfront, _⟩ | ⟨hfront, _⟩
  all_goals
    rw [hfront]
    rfl

/-- **The normal form is what the walk along the components comes to.** -/
theorem normalize_eq_foldl (p : Path) : p.normalize = p.components.foldl step ⟨[]⟩ := by
  have hcomponents : ∀ c ∈ Component.ofText (p.spelling.drop p.front.length),
      c ≠ .root ∧ ∀ name, c = .normal name → Component.IsName name := by
    intro c hc
    rcases Component.mem_ofText hc with rfl | ⟨name, rfl, hname⟩
    · exact ⟨by simp, by simp⟩
    · refine ⟨by simp, ?_⟩
      intro other heq
      exact Component.normal.inj heq ▸ hname
  have hwalk (isAbsolute : Bool) :=
    foldl_step (List.forall_mem_nil Component.IsName) isAbsolute hcomponents
  -- the front leads to where the walk between the slashes begins
  have hfront : p.frontComponent?.toList.foldl step ⟨[]⟩ = ofNames p.isAbsolute [] := by
    unfold frontComponent?
    rcases front_cases p with ⟨_, _, hfront, habsolute⟩ | ⟨_, _, hfront, habsolute, _⟩ |
        ⟨hfront, habsolute⟩
    all_goals
      rw [hfront, habsolute]
      rfl
  rw [components_eq, List.foldl_append, hfront, hwalk, normalize, components_eq, resolve_append,
    resolve_front]
  rfl

/-- **A normal form is spelled by names**: nothing else is read in it but the root. -/
theorem components_normalForm (p : Path) : p.normalize.components
    = (if p.isAbsolute then [.root] else []) ++ p.names.map .normal :=
  components_ofNames (fun _ => isName_of_mem_names) p.isAbsolute

/-! ## Joining -/

/-- What is spelled behind a path leaves its front alone, if it begins with a slash or the path ends
in one. -/
theorem front_append (hp : p.spelling ≠ []) {rest : Text}
    (hslash : p.spelling.getLast? = some '/' ∨ rest.head? = some '/') :
    (⟨p.spelling ++ rest⟩ : Path).front = p.front := by
  obtain ⟨spelling⟩ := p
  obtain ⟨c, spelling, rfl⟩ := List.exists_cons_of_ne_nil hp
  unfold front
  by_cases hroot : c = '/'
  · subst hroot
    rfl
  · by_cases hperiod : c = '.'
    · subst hperiod
      cases spelling with
      -- a period alone has to be followed by a slash, or it would be part of a name
      | nil =>
        rcases hslash with hlast | hhead
        · simp at hlast
        · obtain ⟨tail, rfl⟩ := List.head?_eq_some_iff.1 hhead
          rfl
      | cons d spelling =>
        by_cases hd : d = '/'
        · subst hd
          rfl
        · simp [hd]
    · simp [hroot, hperiod]

theorem length_front_le (p : Path) : p.front.length ≤ p.spelling.length := by
  rcases front_cases p with ⟨_, heq, hfront, _⟩ | ⟨_, heq, hfront, _⟩ | ⟨hfront, _⟩
  · rw [hfront, heq]
    exact Nat.succ_le_succ (Nat.zero_le _)
  · rw [hfront, heq]
    exact Nat.succ_le_succ (Nat.zero_le _)
  · rw [hfront]
    exact Nat.zero_le _

/-- A path that is followed from another one is read behind it. -/
theorem components_join (hp : p.spelling ≠ []) (hq : q.isAbsolute = false) :
    (p.join q).components = p.components ++ Component.ofText q.spelling := by
  -- whatever is spelled behind, the front stays, and the rest is read up to the end of the path
  have hread {rest : Text} (hslash : p.spelling.getLast? = some '/' ∨ rest.head? = some '/') :
      (⟨p.spelling ++ rest⟩ : Path).components = p.frontComponent?.toList ++
        Component.ofText (p.spelling.drop p.front.length ++ rest) := by
    rw [components_eq, frontComponent?, front_append hp hslash,
      List.drop_append_of_le_length (length_front_le p)]
    rfl
  rw [join_relative p hq]
  split
  · next hends =>
    have hlast : p.spelling.getLast? = some '/' := hends.resolve_left hp
    have hdrop : p.spelling.drop p.front.length = [] ∨
        (p.spelling.drop p.front.length).getLast? = some '/' := by
      rw [List.getLast?_drop]
      split
      · next hle => exact .inl (List.drop_eq_nil_of_le hle)
      · exact .inr hlast
    rw [hread (.inl hlast), Component.ofText_append hdrop, ← List.append_assoc, ← components_eq]
  · rw [hread (.inr rfl), Component.ofText_append_slash, ← List.append_assoc, ← components_eq]

/-- The period at the front of a relative path makes no difference to what is resolved. -/
theorem resolve_components (hq : q.isAbsolute = false) (names : List Text) :
    resolve names q.components = resolve names (Component.ofText q.spelling) := by
  have hread : Component.ofText (q.spelling.drop q.front.length) = Component.ofText q.spelling := by
    rcases front_cases q with ⟨_, _, _, habsolute⟩ | ⟨rest, heq, hfront, _, hrest⟩ | ⟨hfront, _⟩
    · rw [hq] at habsolute
      contradiction
    · rw [hfront, heq]
      rcases hrest with rfl | hhead
      · rfl
      · obtain ⟨tail, rfl⟩ := List.head?_eq_some_iff.1 hhead
        exact (Component.ofText_append_slash [] tail).trans
          (Component.ofText_append_slash ['.'] tail).symm
    · rw [hfront]
      rfl
  rw [components_eq, resolve_append, resolve_front, hread]

theorem isAbsolute_join (p : Path) (hq : q.isAbsolute = false) :
    (p.join q).isAbsolute = p.isAbsolute := by
  obtain ⟨spelling⟩ := p
  rw [join_relative _ hq]
  cases spelling with
  | nil => exact hq
  | cons c spelling => split <;> rfl

/-- **What names are left when a path is followed from another one**: those that the path leaves of
the names of the other one. -/
theorem names_join (p : Path) (hq : q.isAbsolute = false) :
    (p.join q).names = (resolve p.names.reverse q.components).reverse := by
  by_cases hp : p.spelling = []
  · obtain rfl : p = ⟨[]⟩ := congrArg Path.mk hp
    rw [join_relative _ hq, if_pos (.inl rfl)]
    rfl
  · rw [names, names, components_join hp hq, resolve_append, List.reverse_reverse,
      resolve_components hq]

theorem normalize_join_relative (p : Path) (hq : q.isAbsolute = false) :
    (p.join q).normalize = ofNames p.isAbsolute (resolve p.names.reverse q.components).reverse := by
  rw [← names_join p hq, ← isAbsolute_join p hq]
  rfl

/-- **A path may be brought into normal form before another one is followed from it.** -/
theorem normalize_join (p q : Path) : (p.join q).normalize = (p.normalize.join q).normalize := by
  cases hq : q.isAbsolute with
  | true => rw [join_absolute p hq, join_absolute p.normalize hq]
  | false =>
    obtain ⟨habsolute, hnames⟩ := names_normalize p
    rw [normalize_join_relative p hq, normalize_join_relative p.normalize hq, habsolute, hnames]

/-! ## Back to the root -/

theorem resolve_parents (names : List Text) (k : ℕ) :
    resolve names (List.replicate k .parent) = names.drop k := by
  induction k generalizing names with
  | zero => rfl
  | succ k ih => rw [List.replicate_succ, resolve, ih, List.drop_tail]

/-- The root is no such component, so the path is relative. -/
theorem isAbsolute_of_parents {k : ℕ} (hq : q.components = List.replicate k .parent) :
    q.isAbsolute = false := by
  rw [← Bool.not_eq_true]
  intro habsolute
  obtain ⟨rest, rfl⟩ := exists_rest habsolute
  have hroot : Component.root ∈ List.replicate k .parent := by
    rw [← hq, components_absolute]
    exact List.mem_cons_self
  have heq := List.eq_of_mem_replicate hroot
  contradiction

/-- Each step to the parent takes away the name that came last. -/
theorem iterate_up_ofNames (h : ∀ name ∈ names, Component.IsName name) (isAbsolute : Bool) (k : ℕ) :
    up^[k] (ofNames isAbsolute names) = ofNames isAbsolute (names.reverse.drop k).reverse := by
  induction k with
  | zero => rw [Function.iterate_zero_apply, List.drop_zero, List.reverse_reverse]
  | succ k ih =>
    have hkept : ∀ name ∈ (names.reverse.drop k).reverse, Component.IsName name :=
      fun name hname =>
        h name (List.mem_reverse.1 (List.mem_of_mem_drop (List.mem_reverse.1 hname)))
    rw [Function.iterate_succ_apply', ih, up_ofNames hkept, List.dropLast_reverse, List.tail_drop]

/-- **As many two periods, as many steps to the parent.** -/
theorem normalize_join_parents (p : Path) {k : ℕ}
    (hq : q.components = List.replicate k .parent) : (p.join q).normalize = up^[k] p.normalize := by
  rw [normalize_join_relative p (isAbsolute_of_parents hq), hq, resolve_parents]
  exact (iterate_up_ofNames (fun _ => isName_of_mem_names) p.isAbsolute k).symm

/-- The root is where such steps end. -/
theorem iterate_up_root {k : ℕ} (hp : p.isAbsolute = true)
    (hk : p.normalize.components.length ≤ k + 1) : up^[k] p.normalize = ⟨['/']⟩ := by
  have hshort : p.names.length ≤ k := by
    rw [components_normalForm, hp, if_pos rfl, List.length_append, List.length_map,
      List.length_singleton] at hk
    omega
  have hspelled : p.normalize = ofNames true p.names := by
    rw [← hp]
    rfl
  have hnone : p.names.reverse.drop k = [] :=
    List.drop_eq_nil_of_le (le_of_eq_of_le List.length_reverse hshort)
  rw [hspelled, iterate_up_ofNames (fun _ => isName_of_mem_names), hnone]
  rfl

/-- **Normal forms of paths.** A normal form is what the walk along the components comes to. No
period that stands for something is left in it, it is absolute if and only if the path is, and it is
its own normal form. To follow another path from it comes to the same as to follow it from the path
itself. As for two periods, each of them is one step to the parent, and however many there are, from
an absolute path they lead to the root and no further. -/
theorem normal_forms (p : Path) :
    p.normalize = p.components.foldl step ⟨[]⟩ ∧
      (∀ c ∈ p.normalize.components, c ≠ .current ∧ c ≠ .parent) ∧
      p.normalize.isAbsolute = p.isAbsolute ∧
      p.normalize.normalize = p.normalize ∧
      (∀ q, (p.join q).normalize = (p.normalize.join q).normalize) ∧
      ∀ k q, q.components = List.replicate k .parent →
        (p.join q).normalize = up^[k] p.normalize ∧
          (p.isAbsolute = true → p.normalize.components.length ≤ k + 1 →
            (p.join q).normalize = ⟨['/']⟩) := by
  refine ⟨normalize_eq_foldl p, ?_, (names_normalize p).1, normalize_normalize p, normalize_join p,
    ?_⟩
  · intro c hc
    rw [components_normalForm] at hc
    rcases List.mem_append.1 hc with hfront | hname
    · split at hfront
      · rw [List.mem_singleton.1 hfront]
        exact ⟨by simp, by simp⟩
      · contradiction
    · obtain ⟨name, -, rfl⟩ := List.mem_map.1 hname
      exact ⟨by simp, by simp⟩
  · intro k q hq
    have hsteps := normalize_join_parents p hq
    refine ⟨hsteps, ?_⟩
    intro hp hk
    rw [hsteps]
    exact iterate_up_root hp hk

/-- Three times back from two names. -/
theorem normal_forms_above_root :
    (ofString "/a/./b/../c").normalize = ofString "/a/c" ∧
      ((ofString "/a/./b/../c").join (ofString "..//.././../")).normalize = ofString "/" := by
  have hnormal : (ofString "/a/./b/../c").normalize = ofString "/a/c" := by decide
  have hsteps := (normal_forms (ofString "/a/./b/../c")).2.2.2.2.2 3 (ofString "..//.././../")
    (by decide)
  refine ⟨hnormal, hsteps.2 (by decide) ?_⟩
  rw [hnormal]
  decide

end Path

end HybridMarkup
