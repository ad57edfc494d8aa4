/-
Normal forms of paths.

To bring an absolute path into normal form is to read its names and to spell them out again. Names
are never empty, never periods that stand for something, and have no slash in them, so reading what
was spelled gives the same names back: normal forms are stable (`normalize_normalize`).

Generated files are named by an ending behind the path of their document. An ending that is long
enough cannot make the last name one of the special ones, so it is found unchanged behind the normal
form of the path, whatever the path (`normalize_append`).
-/
import HybridMarkup.Path

set_option autoImplicit false

namespace HybridMarkup

open Text

/-! ## Names -/

theorem Text.splitAt_eq_splitOn (c : Char) (t : Text) : splitAt c t = t.splitOn c := by
  induction t with
  | nil => rfl
  | cons d t ih =>
    have hne := List.splitOn_ne_nil c t
    rw [splitAt, List.splitOn_cons_eq_if_modifyHead, ih]
    by_cases hd : d = c
    · rw [if_pos hd, if_pos (beq_iff_eq.2 hd)]
    · rw [if_neg hd, if_neg (by simpa using hd)]
      cases hparts : t.splitOn c with
      | nil => exact absurd hparts hne
      | cons part parts => rfl

/-- What is added behind a text goes to its last part. -/
theorem Text.splitAt_append (c : Char) (t : Text) :
    ∃ init last, ∀ s, c ∉ s → splitAt c (t ++ s) = init ++ [last ++ s] := by
  induction t with
  | nil =>
    refine ⟨[], [], fun s hs => ?_⟩
    rw [splitAt_eq_splitOn]
    exact List.splitOn_eq_singleton hs
  | cons d t ih =>
    obtain ⟨init, last, hparts⟩ := ih
    by_cases hd : d = c
    · refine ⟨[] :: init, last, fun s hs => ?_⟩
      rw [List.cons_append, splitAt, if_pos hd, hparts s hs]
      rfl
    · cases init with
      | nil =>
        refine ⟨[], d :: last, fun s hs => ?_⟩
        rw [List.cons_append, splitAt, if_neg hd, hparts s hs]
        rfl
      | cons part init =>
        refine ⟨(d :: part) :: init, last, fun s hs => ?_⟩
        rw [List.cons_append, splitAt, if_neg hd, hparts s hs]
        rfl

/-- No part has the character that parts the text. -/
theorem Text.not_mem_of_mem_splitAt {c : Char} {t part : Text} (h : part ∈ splitAt c t) :
    c ∉ part := by
  induction t generalizing part with
  | nil =>
    rw [List.mem_singleton.1 h]
    exact List.not_mem_nil
  | cons d t ih =>
    rw [splitAt] at h
    split at h
    · rcases List.mem_cons.1 h with rfl | h
      · exact List.not_mem_nil
      · exact ih h
    · next hd =>
      split at h
      · rw [List.mem_singleton.1 h]
        simpa using Ne.symm hd
      · next first parts hparts =>
        rw [hparts] at ih
        rcases List.mem_cons.1 h with rfl | h
        · simpa using ⟨Ne.symm hd, ih List.mem_cons_self⟩
        · exact ih (List.mem_cons_of_mem _ h)

namespace Component

/-- A part that counts as a name, and does so in any path. -/
structure IsName (part : Text) : Prop where
  counts : ofPart? part = some (normal part)
  free : '/' ∉ part

/-- A name does not begin with a slash, nor with a period before one. -/
theorem IsName.front {part : Text} (h : IsName part) :
    ∃ c rest, part = c :: rest ∧ c ≠ '/' ∧ (c = '.' → ∃ d rest', rest = d :: rest' ∧ d ≠ '/') := by
  obtain ⟨hcounts, hfree⟩ := h
  cases part with
  | nil => simp [ofPart?] at hcounts
  | cons c rest =>
    refine ⟨c, rest, rfl, fun hc => hfree (hc ▸ List.mem_cons_self), fun hc => ?_⟩
    subst hc
    cases rest with
    | nil => simp [ofPart?] at hcounts
    | cons d rest =>
      refine ⟨d, rest, rfl, fun hd => hfree ?_⟩
      exact hd ▸ List.mem_cons_of_mem _ List.mem_cons_self

theorem eq_of_ofPart? {part name : Text} (h : ofPart? part = some (normal name)) : part = name := by
  unfold ofPart? at h
  split at h
  · simp at h
  · split at h
    · simp at h
    · simpa using h

/-- A part with more than two characters is a name. -/
theorem ofPart?_of_length {part : Text} (h : 2 < part.length) :
    ofPart? part = some (normal part) := by
  match part with
  | [] => simp at h
  | [_] => simp at h
  | [_, _] => simp at h
  | _ :: _ :: _ :: _ => simp [ofPart?]

end Component

namespace Path

/-! ## Reading names and spelling them -/

/-- Names that are resolved are the names of the components. -/
theorem mem_resolve {name : Text} {components : List Component} :
    ∀ {names : List Text}, name ∈ resolve names components →
      name ∈ names ∨ Component.normal name ∈ components := by
  induction components with
  | nil => exact fun h => .inl h
  | cons c components ih =>
    intro names h
    cases c with
    | normal first =>
      rcases ih h with h | h
      · rcases List.mem_cons.1 h with rfl | h
        · exact .inr List.mem_cons_self
        · exact .inl h
      · exact .inr (List.mem_cons_of_mem _ h)
    | parent => exact (ih h).imp List.mem_of_mem_tail (List.mem_cons_of_mem _)
    | current => exact (ih h).imp_right (List.mem_cons_of_mem _)
    | root => exact (ih h).imp_right (List.mem_cons_of_mem _)

theorem resolve_append (components components' : List Component) :
    ∀ names, resolve names (components ++ components')
      = resolve (resolve names components) components' := by
  induction components with
  | nil => exact fun _ => rfl
  | cons c components ih =>
    intro names
    cases c <;> exact ih _

theorem resolve_names (parts : List Text) :
    ∀ names, resolve names (parts.map Component.normal) = parts.reverse ++ names := by
  induction parts with
  | nil => exact fun _ => rfl
  | cons part parts ih =>
    intro names
    rw [List.map_cons, resolve, ih, List.reverse_cons, List.append_assoc]
    rfl

/-- The names of the normal form. -/
def names (p : Path) : List Text := (resolve [] p.components).reverse

/-- Each of these names is a part of the path. -/
theorem mem_parts_of_mem_names {p : Path} {name : Text} (h : name ∈ p.names) :
    name ∈ p.parts ∧ Component.ofPart? name = some (.normal name) := by
  rcases mem_resolve (List.mem_reverse.1 h) with h | h
  · exact absurd h List.not_mem_nil
  · rcases List.mem_append.1 h with h | h
    -- what is at the front is no name
    · unfold frontComponent? at h
      split at h <;> simp at h
    · obtain ⟨part, hpart, hcounts⟩ := List.mem_filterMap.1 h
      obtain rfl := Component.eq_of_ofPart? hcounts
      exact ⟨hpart, hcounts⟩

theorem isName_of_mem_names {p : Path} {name : Text} (h : name ∈ p.names) :
    Component.IsName name := by
  obtain ⟨hpart, hcounts⟩ := mem_parts_of_mem_names h
  exact ⟨hcounts, not_mem_of_mem_splitAt hpart⟩

/-- An absolute path is a slash and the rest. -/
theorem exists_rest {p : Path} (h : p.isAbsolute = true) : ∃ rest, p = ⟨'/' :: rest⟩ := by
  obtain ⟨spelling⟩ := p
  cases spelling with
  | nil => simp [isAbsolute] at h
  | cons c rest =>
    simp only [isAbsolute, List.head?_cons, beq_iff_eq, Option.some.injEq] at h
    exact ⟨rest, by rw [h]⟩

theorem components_absolute (rest : Text) :
    (⟨'/' :: rest⟩ : Path).components
      = .root :: (splitAt '/' rest).filterMap Component.ofPart? := rfl

theorem normalize_absolute {p : Path} (h : p.isAbsolute = true) :
    p.normalize = ⟨'/' :: List.intercalate ['/'] p.names⟩ := by
  rw [normalize, h]
  rfl

theorem isAbsolute_normalize {p : Path} (h : p.isAbsolute = true) :
    p.normalize.isAbsolute = true := by
  rw [normalize_absolute h]
  rfl

/-- The parts of names that were spelled are the names. -/
theorem splitAt_spelled {names : List Text} (h : ∀ name ∈ names, Component.IsName name) :
    (splitAt '/' (List.intercalate ['/'] names)).filterMap Component.ofPart?
      = names.map Component.normal := by
  rw [splitAt_eq_splitOn]
  by_cases hnil : names = []
  · subst hnil
    rfl
  · rw [List.splitOn_intercalate '/' (fun name hname => (h name hname).free) hnil]
    clear hnil
    induction names with
    | nil => rfl
    | cons name names ih =>
      rw [List.filterMap_cons_some (h name List.mem_cons_self).counts,
        ih fun other hother => h other (List.mem_cons_of_mem name hother)]
      rfl

/-- Reading names that were spelled from the root gives the names back. -/
theorem names_spelled {names : List Text} (h : ∀ name ∈ names, Component.IsName name) :
    (⟨'/' :: List.intercalate ['/'] names⟩ : Path).names = names := by
  rw [Path.names, components_absolute, splitAt_spelled h, resolve, resolve_names, List.append_nil,
    List.reverse_reverse]

/-- Names that are not spelled from the root have nothing in front of them. -/
theorem front_spelled {names : List Text} (h : ∀ name ∈ names, Component.IsName name) :
    (⟨List.intercalate ['/'] names⟩ : Path).front = [] ∧
      (⟨List.intercalate ['/'] names⟩ : Path).isAbsolute = false := by
  cases names with
  | nil => exact ⟨rfl, rfl⟩
  | cons first names =>
    obtain ⟨tail, hspelled⟩ : ∃ tail, List.intercalate ['/'] (first :: names) = first ++ tail := by
      cases names with
      | nil => exact ⟨[], by simp⟩
      | cons second names =>
        exact ⟨'/' :: List.intercalate ['/'] (second :: names), by simp⟩
    obtain ⟨c, rest, rfl, hslash, hperiod⟩ := (h first List.mem_cons_self).front
    rw [hspelled, List.cons_append]
    refine ⟨?_, by simpa [isAbsolute] using hslash⟩
    by_cases hc : c = '.'
    · obtain ⟨d, rest, rfl, hd⟩ := hperiod hc
      subst hc
      unfold front
      split <;> simp_all
    · unfold front
      split <;> simp_all

/-- **The normal form** is absolute if the path is, and has the same names. -/
theorem names_normalize (p : Path) :
    p.normalize.isAbsolute = p.isAbsolute ∧ p.normalize.names = p.names := by
  have hnames (name : Text) (hname : name ∈ p.names) := isName_of_mem_names hname
  cases h : p.isAbsolute with
  | true =>
    rw [normalize_absolute h]
    exact ⟨rfl, names_spelled hnames⟩
  | false =>
    have hspelled : p.normalize = ⟨List.intercalate ['/'] p.names⟩ := by
      rw [normalize, h]
      rfl
    obtain ⟨hfront, hrelative⟩ := front_spelled hnames
    rw [hspelled]
    refine ⟨hrelative, ?_⟩
    rw [names, components, frontComponent?, parts, hfront, List.length_nil, List.drop_zero,
      splitAt_spelled hnames]
    show (resolve [] (p.names.map Component.normal)).reverse = p.names
    rw [resolve_names, List.append_nil, List.reverse_reverse]

/-- **A normal form is its own normal form.** -/
theorem normalize_normalize (p : Path) : p.normalize.normalize = p.normalize := by
  obtain ⟨habsolute, hnames⟩ := names_normalize p
  rw [normalize, habsolute]
  show ofNames p.isAbsolute p.normalize.names = ofNames p.isAbsolute p.names
  rw [hnames]

/-! ## Endings -/

/-- An ending with which a part is a name, whatever is in front of it. -/
structure IsEnding (ending : Text) : Prop where
  free : '/' ∉ ending
  long : 2 < ending.length

/-- One more name is spelled behind a slash. -/
theorem intercalate_snoc {names : List Text} (hne : names ≠ []) (name : Text) :
    List.intercalate ['/'] (names ++ [name]) = List.intercalate ['/'] names ++ '/' :: name := by
  induction names with
  | nil => exact absurd rfl hne
  | cons first names ih =>
    rw [List.cons_append, List.intercalate_cons_of_ne_nil (by simp)]
    by_cases hnil : names = []
    · subst hnil
      simp
    · rw [ih hnil, List.intercalate_cons_of_ne_nil hnil]
      simp only [List.append_assoc]

/-- The last of several names is spelled last. -/
theorem intercalate_append (names : List Text) :
    ∃ stem, ∀ name, List.intercalate ['/'] (names ++ [name]) = stem ++ name := by
  by_cases hnil : names = []
  · subst hnil
    exact ⟨[], fun name => List.intercalate_singleton⟩
  · refine ⟨List.intercalate ['/'] names ++ ['/'], fun name => ?_⟩
    rw [intercalate_snoc hnil, List.append_assoc]
    rfl

/-- The names of a path with an ending: the ending goes to what stands last in the path, which is
its last name or else no name of it at all. -/
theorem names_append {p : Path} (h : p.isAbsolute = true) :
    ∃ init last,
      (∀ ending, IsEnding ending → names ⟨p.spelling ++ ending⟩ = init ++ [last ++ ending]) ∧
        (p.names = init ++ [last] ∨ p.names.length ≤ init.length) := by
  obtain ⟨rest, rfl⟩ := exists_rest h
  obtain ⟨parts, last, hparts⟩ := Text.splitAt_append '/' rest
  refine ⟨(resolve [] (.root :: parts.filterMap Component.ofPart?)).reverse, last,
    fun ending hending => ?_, ?_⟩
  · have hlong : 2 < (last ++ ending).length := by
      rw [List.length_append]
      exact Nat.lt_add_left _ hending.long
    rw [names, List.cons_append, components_absolute, hparts ending hending.free,
      List.filterMap_append, List.filterMap_cons_some (Component.ofPart?_of_length hlong),
      ← List.cons_append, resolve_append]
    exact List.reverse_cons
  · have hplain := hparts [] List.not_mem_nil
    rw [List.append_nil, List.append_nil] at hplain
    rw [names, components_absolute, hplain, List.filterMap_append, ← List.cons_append,
      resolve_append]
    generalize resolve [] (.root :: parts.filterMap Component.ofPart?) = names
    cases hlast : Component.ofPart? last with
    | none =>
      rw [List.filterMap_cons_none hlast]
      exact .inr (Nat.le_refl _)
    | some c =>
      rw [List.filterMap_cons_some hlast]
      cases c with
      | normal name =>
        rw [Component.eq_of_ofPart? hlast]
        exact .inl List.reverse_cons
      | parent =>
        right
        simp [resolve]
      | root | current => exact .inr (Nat.le_refl _)

/-- **The normal form of a path with an ending** is a text that depends on the path alone, and the
ending behind it. -/
theorem normalize_append {p : Path} (h : p.isAbsolute = true) :
    ∃ stem, ∀ ending, IsEnding ending → normalize ⟨p.spelling ++ ending⟩ = ⟨stem ++ ending⟩ := by
  obtain ⟨init, last, hnames, -⟩ := names_append h
  obtain ⟨stem, hstem⟩ := intercalate_append init
  refine ⟨'/' :: stem ++ last, fun ending hending => ?_⟩
  obtain ⟨rest, rfl⟩ := exists_rest h
  rw [normalize_absolute rfl, hnames ending hending, hstem]
  simp

/-- An ending changes the normal form. -/
theorem normalize_append_ne {p : Path} (h : p.isAbsolute = true) {ending : Text}
    (hending : IsEnding ending) : normalize ⟨p.spelling ++ ending⟩ ≠ p.normalize := by
  obtain ⟨init, last, hnames, hplain⟩ := names_append h
  intro heq
  have hsame := congrArg names heq
  rw [(names_normalize _).2, (names_normalize p).2, hnames ending hending] at hsame
  rcases hplain with hplain | hshort
  · rw [hplain] at hsame
    have hlast := (List.append_inj' hsame rfl).2
    have hlong := hending.long
    rw [List.append_right_eq_self.1 (List.singleton_inj.1 hlast)] at hlong
    exact absurd hlong (Nat.not_lt_zero _)
  · rw [← hsame, List.length_append] at hshort
    exact absurd hshort (Nat.not_succ_le_self _)

theorem isName_append {name ending : Text} (hname : '/' ∉ name) (hending : IsEnding ending) :
    Component.IsName (name ++ ending) := by
  refine ⟨Component.ofPart?_of_length ?_, fun h => ?_⟩
  · rw [List.length_append]
    exact Nat.lt_add_left _ hending.long
  · exact (List.mem_append.1 h).elim hname hending.free

/-- **A normal form with an ending is a normal form.** -/
theorem normalize_append_of_normal {p : Path} (h : p.isAbsolute = true) (hnormal : p.normalize = p)
    {ending : Text} (hending : IsEnding ending) :
    normalize ⟨p.spelling ++ ending⟩ = ⟨p.spelling ++ ending⟩ := by
  have hnames (name : Text) (hname : name ∈ p.names) := isName_of_mem_names hname
  have hspelling : p.spelling = '/' :: List.intercalate ['/'] p.names :=
    congrArg spelling (hnormal.symm.trans (normalize_absolute h))
  -- the ending goes to the last name, or is a name itself
  obtain ⟨names, hspelled, hall⟩ : ∃ names : List Text,
      p.spelling ++ ending = '/' :: List.intercalate ['/'] names ∧
        ∀ name ∈ names, Component.IsName name := by
    rcases List.eq_nil_or_concat p.names with hnil | ⟨init, last, hlast⟩
    · refine ⟨[ending], ?_, fun name hname => ?_⟩
      · rw [hspelling, hnil, List.intercalate_singleton]
        rfl
      · rw [List.mem_singleton.1 hname]
        exact isName_append List.not_mem_nil hending
    · rw [hlast, List.concat_eq_append] at hnames hspelling
      obtain ⟨stem, hstem⟩ := intercalate_append init
      refine ⟨init ++ [last ++ ending], ?_, fun name hname => ?_⟩
      · rw [hspelling, hstem, hstem, List.cons_append, List.append_assoc]
      · rcases List.mem_append.1 hname with hname | hname
        · exact hnames name (List.mem_append_left _ hname)
        · rw [List.mem_singleton.1 hname]
          refine isName_append (hnames last ?_).free hending
          exact List.mem_append_right _ (List.mem_singleton_self last)
  rw [hspelled, normalize_absolute rfl, names_spelled hall]

end Path

end HybridMarkup
