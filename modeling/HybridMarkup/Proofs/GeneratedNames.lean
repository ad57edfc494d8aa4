/-
How the name of a generated file is taken apart again.

The name is that of a document with an ending behind it that tells the kind
(`Tree.artifact_ending`). No such ending is found in another one but at its front
(`LooksLikeEnding.whole`). So however the name of the document may look, the first place behind
which there is an ending is the one where it was put (`splitName?_append`), and the path of the
document comes back from that of the file (`VirtualFile.ofPath?_append`). The number of a block has
to be one that can be read, and it is, because a document has no more blocks than tokens
(`Parse.index_le_maxIndex`).
-/
import HybridMarkup.Proofs.ArtifactNames
import HybridMarkup.Proofs.CopiedOnce
import Mathlib.Data.List.Infix

set_option autoImplicit false

namespace HybridMarkup

open Text

/-! ## Endings by kind -/

/-- What stands behind the path of a document in the name of an artifact of a kind. -/
inductive ArtifactKind.Ending : ArtifactKind → Text → Prop
  | block (index : Nat) (language : HostLanguage) :
      Ending (.block index) (blockNameEnd index language)
  | proseScript : Ending .script proseScriptSuffix
  | prose : Ending .prose proseSuffix
  | index : Ending .index indexSuffix
  | templateScript {language : HostLanguage} (h : language ∈ [HostLanguage.js, .ts]) :
      Ending .script (templateScriptSuffix ++ '.' :: language.extension)

theorem ArtifactKind.Ending.isEnding {kind : ArtifactKind} {ending : Text}
    (h : kind.Ending ending) : Path.IsEnding ending := by
  cases h with
  | block index language => exact isEnding_block index language
  | proseScript | prose | index => decide
  | @templateScript language _ => cases language <;> decide

theorem ProseArtifacts.exists_of_mem_blockArtifacts {blocks : List (Text × CodeGen)}
    {a : Artifact} : ∀ {first : Nat}, a ∈ blockArtifacts first blocks →
      ∃ i, a.kind = .block (first + i) ∧ (blocks.map Prod.fst)[i]? = some a.fileName := by
  induction blocks with
  | nil => exact fun ha => absurd ha List.not_mem_nil
  | cons block blocks ih =>
    intro first ha
    rcases List.mem_cons.1 ha with rfl | ha
    · exact ⟨0, rfl, rfl⟩
    · obtain ⟨i, hkind, hname⟩ := ih ha
      exact ⟨i + 1, by rw [hkind, Nat.add_right_comm]; rfl, hname⟩

/-- **An artifact is named by its kind.** -/
theorem Tree.artifact_ending {t : Tree} {fileName : Text} {a : Artifact}
    (ha : a ∈ t.artifacts fileName) :
    ∃ ending, a.kind.Ending ending ∧ a.fileName = fileName ++ ending := by
  have hprose (ha : a ∈ ProseArtifacts.ofTree t fileName) :
      ∃ ending, a.kind.Ending ending ∧ a.fileName = fileName ++ ending := by
    unfold ProseArtifacts.ofTree at ha
    dsimp only at ha
    rcases List.mem_append.1 ha with ha | ha
    · rcases List.mem_append.1 ha with ha | ha
      · obtain ⟨i, hkind, hname⟩ := ProseArtifacts.exists_of_mem_blockArtifacts ha
        obtain ⟨languages, hnames⟩ := ProseArtifacts.output_numbered t fileName
        rw [hnames, List.getElem?_map, List.getElem?_mapIdx] at hname
        obtain ⟨_, hending, hname⟩ := Option.map_eq_some_iff.1 hname
        obtain ⟨language, _, rfl⟩ := Option.map_eq_some_iff.1 hending
        rw [hkind, Nat.zero_add]
        exact ⟨_, .block i language, hname.symm⟩
      · rcases List.mem_cons.1 ha with rfl | ha
        · exact ⟨_, .proseScript, rfl⟩
        · rw [List.mem_singleton.1 ha]
          exact ⟨_, .prose, rfl⟩
    · split at ha
      · rw [List.mem_singleton.1 ha]
        exact ⟨_, .index, rfl⟩
      · exact absurd ha List.not_mem_nil
  unfold Tree.artifacts at ha
  split at ha
  · rw [List.mem_singleton.1 ha]
    simp only [TemplateArtifact.ofTree, CodeGen.artifact, List.append_assoc]
    split
    · exact ⟨_, .templateScript (show HostLanguage.ts ∈ _ by decide), rfl⟩
    · exact ⟨_, .templateScript (show HostLanguage.js ∈ _ by decide), rfl⟩
  · exact hprose ha
  · exact hprose ha

/-! ## Endings in endings -/

/-- The endings without a number. -/
def fixedEndings : List Text :=
  [proseScriptSuffix, proseSuffix, indexSuffix, templateScriptSuffix ++ ".js".toList,
    templateScriptSuffix ++ ".ts".toList]

/-- What the name of a block has behind the number. -/
def HostLanguage.blockTail (language : HostLanguage) : Text :=
  blockSuffix ++ '.' :: language.extension

/-- What looks like an ending: one without a number, or any digits with what stands around the
number of a block. -/
inductive LooksLikeEnding : Text → Prop
  | fixed {ending : Text} (h : ending ∈ fixedEndings) : LooksLikeEnding ending
  | numbered {digits : Text} (language : HostLanguage) (hne : digits ≠ [])
      (hdigits : ∀ c ∈ digits, c.isDigit = true) :
      LooksLikeEnding ('.' :: (digits ++ language.blockTail))

theorem ArtifactKind.Ending.looksLikeEnding {kind : ArtifactKind} {ending : Text}
    (h : kind.Ending ending) : LooksLikeEnding ending := by
  cases h with
  | block index language =>
    rw [blockNameEnd, List.append_assoc, List.cons_append]
    exact .numbered language Nat.toDigits_ne_nil fun _ => isDigit_of_mem_ofNat
  | proseScript | prose | index => exact .fixed (by decide)
  | @templateScript language h =>
    refine .fixed ?_
    cases language <;> first | decide | exact absurd h (by decide)

/-- Whether a text begins as endings do, or is one without a number. -/
def beginsAsEnding (t : Text) : Bool :=
  match t with
  | '.' :: c :: _ => c.isDigit || fixedEndings.contains t
  | _ => false

theorem LooksLikeEnding.begins {t : Text} (h : LooksLikeEnding t) : beginsAsEnding t = true := by
  cases h with
  | fixed h => exact (show ∀ t ∈ fixedEndings, beginsAsEnding t = true by decide) t h
  | @numbered digits _ hne hdigits =>
    cases digits with
    | nil => exact absurd rfl hne
    | cons c digits =>
      rw [List.cons_append, beginsAsEnding, hdigits c List.mem_cons_self]
      rfl

theorem head_of_beginsAsEnding {c : Char} {t : Text} (h : beginsAsEnding (c :: t) = true) :
    c = '.' := by
  unfold beginsAsEnding at h
  split at h
  · next heq => exact (List.cons.inj heq).1
  · contradiction

/-- **No ending has another one in it**, but at its front. -/
theorem LooksLikeEnding.whole {s t : Text} (h : LooksLikeEnding (s ++ t))
    (ht : LooksLikeEnding t) : s = [] := by
  have hbegins := ht.begins
  generalize hst : s ++ t = ending at h
  cases h with
  | fixed h =>
    have hall : ∀ ending ∈ fixedEndings, ∀ t ∈ ending.tails,
        beginsAsEnding t = true → t = ending := by decide
    have heq := hall ending h t ((List.mem_tails _ _).2 ⟨s, hst⟩) hbegins
    exact List.append_left_eq_self.1 (hst.trans heq.symm)
  | @numbered digits language _ hdigits =>
    have hnone {t : Text} (ht : t <:+ language.blockTail) : beginsAsEnding t = false := by
      have hall : ∀ t ∈ language.blockTail.tails, beginsAsEnding t = false := by
        cases language <;> decide
      exact hall t ((List.mem_tails _ _).2 ht)
    cases s with
    | nil => rfl
    | cons c s =>
      rcases List.append_eq_append_iff.1 (List.cons.inj hst).2 with
        ⟨digits', hdigits', rfl⟩ | ⟨front, -, htail⟩
      -- it would begin with a digit, or be the tail itself
      · cases digits' with
        | nil =>
          rw [List.nil_append, hnone (List.suffix_refl _)] at hbegins
          contradiction
        | cons d digits' =>
          have hd := hdigits d (hdigits' ▸ List.mem_append_right s List.mem_cons_self)
          rw [head_of_beginsAsEnding hbegins] at hd
          contradiction
      · rw [hnone ⟨front, htail.symm⟩] at hbegins
        contradiction

/-! ## Reading an ending -/

namespace VirtualFile

theorem digitsValue_eq (digits : Text) :
    ∀ value, digitsValue value digits = Nat.ofDigitChars 10 digits value := by
  induction digits with
  | nil => exact fun _ => rfl
  | cons c digits ih => exact fun _ => ih _

theorem digitsValue_ofNat (n : Nat) : digitsValue 0 (Text.ofNat n) = n := by
  rw [digitsValue_eq]
  exact Nat.ofDigitChars_toDigits (by decide) (Nat.le_refl 10)

theorem blockKind?_block {index : Nat} (h : index ≤ maxIndex) (language : HostLanguage) :
    blockKind? (blockNameEnd index language) = some (.block index) := by
  have hdigits : ∀ c ∈ Text.ofNat index, c.isDigit = true := fun _ => isDigit_of_mem_ofNat
  have htail : language.blockTail.takeWhile Char.isDigit = [] ∧
      language.blockTail.dropWhile Char.isDigit = language.blockTail := by
    cases language <;> exact ⟨rfl, rfl⟩
  have hname : blockNameEnd index language = '.' :: (Text.ofNat index ++ language.blockTail) := by
    rw [blockNameEnd, List.append_assoc, List.cons_append]
    rfl
  rw [hname, blockKind?, List.takeWhile_append_of_pos hdigits,
    List.dropWhile_append_of_pos hdigits, htail.1, htail.2, List.append_nil, digitsValue_ofNat,
    if_pos]
  refine ⟨Nat.toDigits_ne_nil, ?_, h⟩
  cases language <;> decide

/-- An ending that is read has the looks of one. -/
theorem looksLikeEnding_of_ofEnding? {ending : Text} {kind : ArtifactKind}
    (h : ofEnding? ending = some kind) : LooksLikeEnding ending := by
  by_cases hfixed : ending ∈ fixedEndings
  · exact .fixed hfixed
  · simp only [fixedEndings, List.mem_cons, List.not_mem_nil, or_false, not_or] at hfixed
    obtain ⟨hproseScript, hprose, hindex, hjs, hts⟩ := hfixed
    rw [ofEnding?, if_neg hproseScript, if_neg hprose, if_neg hindex, if_neg hjs, if_neg hts] at h
    unfold blockKind? at h
    split at h
    · next t =>
      dsimp only at h
      split at h
      · next hblock =>
        obtain ⟨hne, htail, -⟩ := hblock
        obtain ⟨language, -, hlanguage⟩ := List.mem_map.1 (List.contains_iff_mem.1 htail)
        rw [← List.takeWhile_append_dropWhile (p := Char.isDigit) (l := t), ← hlanguage]
        exact .numbered language hne fun c hc => List.all_eq_true.1 List.all_takeWhile c hc
      · contradiction
    · contradiction

/-- **The ending of a kind is read as that kind**, if the number of a block can be read. -/
theorem ofEnding?_of_ending {kind : ArtifactKind} {ending : Text} (h : kind.Ending ending)
    (hindex : ∀ index, kind = .block index → index ≤ maxIndex) : ofEnding? ending = some kind := by
  cases h with
  | block index language =>
    have hnumber : endingNumber (blockNameEnd index language) ≠ [] := by
      rw [endingNumber_block]
      exact Nat.toDigits_ne_nil
    have hne : ∀ ending ∈ fixedEndings, blockNameEnd index language ≠ ending := by
      have hall : ∀ ending ∈ fixedEndings, endingNumber ending = [] := by decide
      exact fun ending hending heq => hnumber (heq ▸ hall ending hending)
    simp only [fixedEndings, List.forall_mem_cons, List.not_mem_nil, false_imp_iff,
      implies_true, and_true] at hne
    obtain ⟨hproseScript, hprose, hindex', hjs, hts⟩ := hne
    rw [ofEnding?, if_neg hproseScript, if_neg hprose, if_neg hindex', if_neg hjs, if_neg hts]
    exact blockKind?_block (hindex index rfl) language
  | proseScript | prose | index => decide
  | @templateScript language h => cases language <;> first | decide | exact absurd h (by decide)

/-! ## Taking a name apart -/

/-- **A name is taken apart where the ending was put**, whatever the name in front of it may look
like. -/
theorem splitName?_append {ending : Text} {kind : ArtifactKind} (h : ofEnding? ending = some kind)
    {name : Text} (hne : name ≠ []) (hline : '\n' ∉ name) (front : Text) :
    splitName? front (name ++ ending) = some (kind, front.reverse ++ name) := by
  induction name generalizing front with
  | nil => exact absurd rfl hne
  | cons c name ih =>
    have hc : c ≠ '\n' := fun hc => hline (hc ▸ List.mem_cons_self)
    rw [List.cons_append, splitName?, if_neg hc]
    cases hname : name with
    | nil =>
      rw [List.nil_append, h]
      dsimp only
      rw [List.reverse_cons]
    | cons d rest =>
      rw [← hname]
      have hnone : ofEnding? (name ++ ending) = none := by
        cases hread : ofEnding? (name ++ ending) with
        | none => rfl
        | some kind' =>
          have hwhole := (looksLikeEnding_of_ofEnding? hread).whole (looksLikeEnding_of_ofEnding? h)
          rw [hname] at hwhole
          contradiction
      rw [hnone]
      dsimp only
      rw [ih (by simp [hname]) (fun hin => hline (List.mem_cons_of_mem c hin)), List.reverse_cons,
        List.append_assoc]
      rfl

end VirtualFile

/-! ## File names -/

/-- The characters of the parts are characters of the text. -/
theorem Text.mem_of_mem_splitAt {c d : Char} {t part : Text} (h : part ∈ splitAt c t)
    (hd : d ∈ part) : d ∈ t := by
  induction t generalizing part with
  | nil => rwa [List.mem_singleton.1 h] at hd
  | cons first t ih =>
    rw [splitAt] at h
    split at h
    · rcases List.mem_cons.1 h with rfl | h
      · exact absurd hd List.not_mem_nil
      · exact List.mem_cons_of_mem _ (ih h hd)
    · split at h
      · rw [List.mem_singleton.1 h] at hd
        exact List.mem_cons.2 (.inl (List.mem_singleton.1 hd))
      · next part' parts hparts =>
        rw [hparts] at ih
        rcases List.mem_cons.1 h with rfl | h
        · rcases List.mem_cons.1 hd with rfl | hd
          · exact List.mem_cons_self
          · exact List.mem_cons_of_mem _ (ih List.mem_cons_self hd)
        · exact List.mem_cons_of_mem _ (ih (List.mem_cons_of_mem _ h) hd)

namespace Path

/-- The normal form has no characters but slashes that the path has not. -/
theorem mem_of_mem_normalize {p : Path} {c : Char} (hc : c ∈ p.normalize.spelling)
    (hslash : c ≠ '/') : c ∈ p.spelling := by
  have hnames (names : List Text) (hc : c ∈ List.intercalate ['/'] names) :
      ∃ name ∈ names, c ∈ name := by
    induction names with
    | nil => exact absurd hc List.not_mem_nil
    | cons name names ih =>
      by_cases hnil : names = []
      · subst hnil
        rw [List.intercalate_singleton] at hc
        exact ⟨name, List.mem_cons_self, hc⟩
      · rw [List.intercalate_cons_of_ne_nil hnil, List.append_assoc] at hc
        rcases List.mem_append.1 hc with hc | hc
        · exact ⟨name, List.mem_cons_self, hc⟩
        · obtain ⟨other, hother, hc⟩ := ih ((List.mem_cons.1 hc).resolve_left hslash)
          exact ⟨other, List.mem_cons_of_mem _ hother, hc⟩
  have hspelled : c ∈ List.intercalate ['/'] p.names := by
    rcases List.mem_append.1 hc with hc | hc
    · split at hc
      · exact absurd (List.mem_singleton.1 hc) hslash
      · exact absurd hc List.not_mem_nil
    · exact hc
  obtain ⟨name, hname, hc⟩ := hnames p.names hspelled
  exact List.mem_of_mem_drop (Text.mem_of_mem_splitAt (mem_parts_of_mem_names hname).1 hc)

/-- What is left of parts: nothing, if none of them counts, or else all up to the last one that
counts. -/
theorem trimParts_cases (parts : List Text) :
    (trimParts parts = [] ∧ ∀ part ∈ parts, Component.ofPart? part = none) ∨
      ∃ init last c behind, trimParts parts = init ++ [last] ∧
        Component.ofPart? last = some c ∧ parts = init ++ last :: behind ∧
          ∀ part ∈ behind, Component.ofPart? part = none := by
  induction parts using List.reverseRecOn with
  | nil => exact .inl ⟨rfl, fun part hpart => absurd hpart List.not_mem_nil⟩
  | append_singleton parts part ih =>
    unfold trimParts at ih ⊢
    rw [List.reverse_append, List.reverse_singleton, List.singleton_append]
    cases hcounts : Component.ofPart? part with
    | none =>
      have hsnoc (behind : List Text) (hnone : ∀ other ∈ behind, Component.ofPart? other = none) :
          ∀ other ∈ behind ++ [part], Component.ofPart? other = none :=
        List.forall_mem_append.2 ⟨hnone, List.forall_mem_singleton.2 hcounts⟩
      rw [List.dropWhile_cons_of_pos (by simp [hcounts])]
      rcases ih with ⟨htrim, hnone⟩ | ⟨init, last, c, behind, htrim, hlast, rfl, hnone⟩
      · exact .inl ⟨htrim, hsnoc parts hnone⟩
      · exact .inr ⟨init, last, c, behind ++ [part], htrim, hlast, by simp, hsnoc behind hnone⟩
    | some c =>
      rw [List.dropWhile_cons_of_neg (by simp [hcounts]), List.reverse_cons, List.reverse_reverse]
      exact .inr ⟨parts, part, c, [], rfl, hcounts, rfl, fun part hpart =>
        absurd hpart List.not_mem_nil⟩

/-- The parts that are dropped do not count. -/
theorem filterMap_trimParts (parts : List Text) :
    (trimParts parts).filterMap Component.ofPart? = parts.filterMap Component.ofPart? := by
  rcases trimParts_cases parts with
    ⟨htrim, hnone⟩ | ⟨init, last, c, behind, htrim, hlast, rfl, hnone⟩
  · rw [htrim, List.filterMap_eq_nil_iff.2 hnone, List.filterMap_nil]
  · rw [htrim, List.filterMap_append, List.filterMap_append, List.filterMap_cons_some hlast,
      List.filterMap_cons_some hlast, List.filterMap_eq_nil_iff.2 hnone, List.filterMap_nil]

theorem mem_of_mem_trimParts {parts : List Text} {part : Text} (h : part ∈ trimParts parts) :
    part ∈ parts :=
  List.mem_reverse.1 ((List.dropWhile_sublist _).subset (List.mem_reverse.1 h))

/-- What is left of parts that all count: all of them. -/
theorem trimParts_names {names : List Text} (h : ∀ name ∈ names, Component.IsName name) :
    trimParts names = names := by
  unfold trimParts
  rcases List.eq_nil_or_concat names with rfl | ⟨init, last, rfl⟩
  · rfl
  · rw [List.concat_eq_append] at h ⊢
    have hlast := (h last (List.mem_append_right _ (List.mem_singleton_self last))).counts
    rw [List.reverse_append, List.reverse_singleton, List.singleton_append,
      List.dropWhile_cons_of_neg (by simp [hlast]), List.reverse_cons, List.reverse_reverse]

/-- The parts of several names that were spelled from the root. -/
theorem parts_spelled {names : List Text} (h : ∀ name ∈ names, Component.IsName name)
    (hne : names ≠ []) : (⟨'/' :: List.intercalate ['/'] names⟩ : Path).parts = names := by
  change splitAt '/' (List.intercalate ['/'] names) = names
  rw [splitAt_eq_splitOn, List.splitOn_intercalate '/' (fun name hname => (h name hname).free) hne]

/-- The file name of a path in normal form is its last name. -/
theorem spelling_of_fileName? {p : Path} (h : p.isAbsolute = true) (hnormal : p.normalize = p)
    {name : Text} (hname : p.fileName? = some name) :
    ∃ init, (∀ other ∈ init ++ [name], Component.IsName other) ∧
      p.spelling = '/' :: List.intercalate ['/'] (init ++ [name]) := by
  have hnames (name : Text) (hname : name ∈ p.names) := isName_of_mem_names hname
  have hspelled : p = ⟨'/' :: List.intercalate ['/'] p.names⟩ :=
    hnormal.symm.trans (normalize_absolute h)
  have hcomponents : p.components = .root :: p.names.map .normal := by
    conv_lhs => rw [hspelled]
    rw [components_absolute, splitAt_spelled hnames]
  rcases List.eq_nil_or_concat p.names with hnil | ⟨init, last, hlast⟩
  · rw [fileName?, hcomponents, hnil] at hname
    simp at hname
  · rw [List.concat_eq_append] at hlast
    rw [fileName?, hcomponents, hlast, List.map_append, List.map_singleton, ← List.cons_append,
      List.getLast?_concat] at hname
    obtain rfl := Option.some.inj hname
    rw [hlast] at hnames hspelled
    exact ⟨init, hnames, congrArg spelling hspelled⟩

/-- The file name of names that were spelled from the root. -/
theorem fileName?_spelled {init : List Text} {last : Text}
    (h : ∀ name ∈ init ++ [last], Component.IsName name) :
    (⟨'/' :: List.intercalate ['/'] (init ++ [last])⟩ : Path).fileName? = some last := by
  rw [fileName?, components_absolute, splitAt_spelled h, List.map_append, List.map_singleton,
    ← List.cons_append, List.getLast?_concat]

/-- What is spelled from the root ends in a slash only if there is nothing behind it, or its last
part is empty. -/
theorem getLast?_spelled (init : List Text) {last : Text} (hne : last ≠ []) (hfree : '/' ∉ last) :
    ('/' :: List.intercalate ['/'] (init ++ [last])).getLast? ≠ some '/' := by
  obtain ⟨stem, hstem⟩ := intercalate_append init
  rw [hstem, ← List.cons_append, List.getLast?_append]
  cases hend : last.getLast? with
  | none => exact absurd (List.getLast?_eq_none_iff.1 hend) hne
  | some c =>
    rw [Option.some_or]
    rintro heq
    exact hfree (Option.some.inj heq ▸ List.mem_of_getLast? hend)

/-- **A file name is replaced**: what is behind it goes, and what does not count in front of it. -/
theorem withFileName_eq {p : Path} (h : p.isAbsolute = true) (hfile : p.fileName?.isSome = true)
    {name : Text} (hname : '/' ∉ name) :
    p.withFileName name
      = ⟨'/' :: List.intercalate ['/'] (trimParts (trimParts p.parts).dropLast ++ [name])⟩ := by
  obtain ⟨rest, rfl⟩ := exists_rest h
  have hparent : (⟨'/' :: rest⟩ : Path).parent? = some
      ⟨'/' :: List.intercalate ['/'] (trimParts (trimParts (splitAt '/' rest)).dropLast)⟩ := by
    have hparts : (⟨'/' :: rest⟩ : Path).parts = splitAt '/' rest := rfl
    unfold parent?
    rw [hparts]
    cases htrim : trimParts (splitAt '/' rest) with
    | nil =>
      -- without a part that counts there is no file name
      rw [fileName?, components_absolute, ← filterMap_trimParts, htrim] at hfile
      simp at hfile
    | cons part parts => rfl
  have hrelative : (⟨name⟩ : Path).isAbsolute = false := by
    cases name with
    | nil => rfl
    | cons c rest =>
      have hc : c ≠ '/' := fun hc => hname (hc ▸ List.mem_cons_self)
      simpa [isAbsolute] using hc
  unfold withFileName
  rw [if_pos hfile, hparent, Option.getD_some, join, if_neg (by simp [hrelative])]
  dsimp only
  change _ = (⟨'/' :: List.intercalate ['/']
    (trimParts (trimParts (splitAt '/' rest)).dropLast ++ [name])⟩ : Path)
  have hkept : ∀ part ∈ (trimParts (splitAt '/' rest)).dropLast, '/' ∉ part := fun part hpart =>
    not_mem_of_mem_splitAt (mem_of_mem_trimParts (List.mem_of_mem_dropLast hpart))
  generalize (trimParts (splitAt '/' rest)).dropLast = kept at hkept
  rcases trimParts_cases kept with ⟨htrim, -⟩ | ⟨init, last, c, behind, htrim, hlast, rfl, -⟩
  · rw [htrim, if_pos (by simp), List.nil_append, List.intercalate_singleton, List.intercalate_nil]
    rfl
  · have hne : last ≠ [] := by
      rintro rfl
      simp [Component.ofPart?] at hlast
    have hfree := hkept last (List.mem_append_right _ List.mem_cons_self)
    rw [htrim, if_neg (by simpa using getLast?_spelled init hne hfree),
      intercalate_snoc (show init ++ [last] ≠ [] by simp)]
    rfl

/-- The file name of names that were spelled from the root is replaced. -/
theorem withFileName_spelled {init : List Text} {last name : Text}
    (h : ∀ name ∈ init ++ [last], Component.IsName name) (hname : '/' ∉ name) :
    (⟨'/' :: List.intercalate ['/'] (init ++ [last])⟩ : Path).withFileName name
      = ⟨'/' :: List.intercalate ['/'] (init ++ [name])⟩ := by
  rw [withFileName_eq rfl (by rw [fileName?_spelled h]; rfl) hname, parts_spelled h (by simp),
    trimParts_names h, List.dropLast_concat,
    trimParts_names fun name hin => h name (List.mem_append_left _ hin)]

/-- A file beside that of a path, named by an ending behind its name: its file name, and the way
back. -/
theorem fileName?_append {p : Path} (h : p.isAbsolute = true) (hnormal : p.normalize = p)
    {name ending : Text} (hname : p.fileName? = some name) (hending : IsEnding ending) :
    (⟨p.spelling ++ ending⟩ : Path).fileName? = some (name ++ ending) ∧
      (⟨p.spelling ++ ending⟩ : Path).withFileName name = p := by
  obtain ⟨init, hnames, hspelling⟩ := spelling_of_fileName? h hnormal hname
  have hlast := hnames name (List.mem_append_right _ (List.mem_singleton_self name))
  have hnames' : ∀ other ∈ init ++ [name ++ ending], Component.IsName other := by
    refine List.forall_mem_append.2 ⟨fun other hin => hnames other (List.mem_append_left _ hin), ?_⟩
    exact List.forall_mem_singleton.2 (isName_append hlast.free hending)
  have hspelled : (⟨p.spelling ++ ending⟩ : Path)
      = ⟨'/' :: List.intercalate ['/'] (init ++ [name ++ ending])⟩ := by
    obtain ⟨stem, hstem⟩ := intercalate_append init
    rw [hspelling, hstem, hstem, List.cons_append, List.append_assoc]
  rw [hspelled, fileName?_spelled hnames', withFileName_spelled hnames' hlast.free, ← hspelling]
  exact ⟨rfl, rfl⟩

/-- The characters of the file name of a path in normal form are in the path. -/
theorem mem_of_mem_fileName? {p : Path} (h : p.isAbsolute = true) (hnormal : p.normalize = p)
    {name : Text} (hname : p.fileName? = some name) {c : Char} (hc : c ∈ name) :
    c ∈ p.spelling := by
  obtain ⟨init, -, hspelling⟩ := spelling_of_fileName? h hnormal hname
  obtain ⟨stem, hstem⟩ := intercalate_append init
  rw [hspelling, hstem]
  exact List.mem_cons_of_mem _ (List.mem_append_right _ hc)

end Path

namespace VirtualFile

/-- **The path of a document comes back** from that of a file generated from it. -/
theorem ofPath?_append {p : Path} (h : p.isAbsolute = true) (hnormal : p.normalize = p)
    {name ending : Text} (hname : p.fileName? = some name) (hline : '\n' ∉ name)
    {kind : ArtifactKind} (hending : kind.Ending ending)
    (hindex : ∀ index, kind = .block index → index ≤ maxIndex) :
    ofPath? ⟨p.spelling ++ ending⟩ = some ⟨kind, p⟩ := by
  obtain ⟨hfile, hback⟩ := Path.fileName?_append h hnormal hname hending.isEnding
  have hne : name ≠ [] := by
    obtain ⟨init, hnames, -⟩ := Path.spelling_of_fileName? h hnormal hname
    obtain ⟨c, rest, rfl, -, -⟩ :=
      (hnames name (List.mem_append_right _ (List.mem_singleton_self name))).front
    exact List.cons_ne_nil c rest
  rw [ofPath?, hfile, Option.bind_some,
    splitName?_append (ofEnding?_of_ending hending hindex) hne hline]
  dsimp only
  rw [List.reverse_nil, List.nil_append, hback]

end VirtualFile

/-! ## The number of blocks -/

namespace ProseArtifacts

theorem length_bodies (ps : List Piece) : (bodies ps).length ≤ ps.length := by
  have hfold (blocks : List (List Span)) :
      (ps.foldl addToBlocks blocks).length ≤ blocks.length + ps.length := by
    induction ps generalizing blocks with
    | nil => exact Nat.le_refl _
    | cons p ps ih =>
      have hadd : (addToBlocks blocks p).length ≤ blocks.length + 1 := by
        cases p with
        | block => simp [addToBlocks]
        | body source =>
          simp only [addToBlocks, List.length_append, List.length_dropLast, List.length_singleton]
          omega
        | script | prose => exact Nat.le_succ _
      have hrest := ih (addToBlocks blocks p)
      rw [List.foldl_cons, List.length_cons]
      omega
  exact Nat.le_trans (hfold []) (Nat.le_of_eq (Nat.zero_add _))

/-- A token adds one piece at most. -/
theorem length_pieces_take (deal : Deal) (t : Token) :
    (deal.take t).pieces.length ≤ deal.pieces.length + 1 := by
  have hadd (piece : Piece) : (deal.add piece).pieces.length = deal.pieces.length + 1 :=
    List.length_append
  unfold Deal.take
  split
  all_goals first
    | exact Nat.le_of_eq (hadd _)
    | exact Nat.le_succ _
    | skip
  split
  · exact Nat.le_succ _
  · dsimp only
    rw [List.length_append]
    split
    · exact Nat.le_refl _
    · exact Nat.le_succ _

theorem length_pieces_foldl (ts : List Token) (deal : Deal) :
    (ts.foldl Deal.take deal).pieces.length ≤ deal.pieces.length + ts.length := by
  induction ts generalizing deal with
  | nil => exact Nat.le_refl _
  | cons t ts ih =>
    have hfirst := length_pieces_take deal t
    have hrest := ih (deal.take t)
    rw [List.foldl_cons, List.length_cons]
    omega

end ProseArtifacts

theorem Scanner.length_tokensIn (fuel : Nat) (s : Scanner) : (s.tokensIn fuel).length ≤ fuel := by
  induction fuel generalizing s with
  | zero => exact Nat.le_refl 0
  | succ fuel ih =>
    unfold tokensIn
    dsimp only
    split
    · exact Nat.succ_le_succ (Nat.zero_le fuel)
    · exact Nat.succ_le_succ (ih _)

/-- The numbers of blocks are smaller than the number of pieces of the document. -/
theorem ProseArtifacts.index_lt_length {dialect : Dialect} {ps : List Piece} {index : Nat}
    {spans : List Span} (h : (.block index, spans) ∈ dealtOut dialect ps) : index < ps.length := by
  unfold dealtOut at h
  rcases List.mem_append.1 h with h | h
  · rcases List.mem_append.1 h with h | h
    · obtain ⟨i, hi, heq⟩ := List.mem_mapIdx.1 h
      obtain rfl := ArtifactKind.block.inj (Prod.mk.inj heq).1
      rw [List.length_map] at hi
      exact Nat.lt_of_lt_of_le hi (length_bodies ps)
    · simp at h
  · split at h <;> simp at h

/-- A text that a string can hold. No string has more bytes than this. -/
def Text.Fits (t : Text) : Prop := size t ≤ 0x7FFFFFFFFFFFFFFF

namespace Parse

variable {options : ParseOptions} {text fileName : Text} {a : Artifact} {index : Nat}

/-- **A document has no more blocks than tokens.** -/
theorem index_lt_tokenLimit (ha : a ∈ (ofText options text).tree.artifacts fileName)
    (hkind : a.kind = .block index) : index < tokenLimit text := by
  by_cases template : options.dialect = .template
  · have hkinds := (TemplateArtifact.artifacts_perm text fileName).1
    rw [← template] at hkinds
    have hscript := List.mem_singleton.1 (hkinds ▸ List.mem_map_of_mem ha)
    rw [hkind] at hscript
    contradiction
  · have hdealt := ProseArtifacts.artifacts_dealtOut template text fileName
    have hmem : (a.kind, a.copied) ∈ ProseArtifacts.dealtOut options.dialect
        ((tokenize options.dialect text).foldl ProseArtifacts.Deal.take {}).pieces :=
      hdealt ▸ List.mem_map_of_mem ha
    rw [hkind] at hmem
    refine Nat.lt_of_lt_of_le (ProseArtifacts.index_lt_length hmem) ?_
    refine Nat.le_trans (ProseArtifacts.length_pieces_foldl _ {}) ?_
    rw [show ({} : ProseArtifacts.Deal).pieces.length = 0 from rfl, Nat.zero_add]
    exact Scanner.length_tokensIn _ _

/-- **The numbers of blocks can be read**, since no text is long enough for more of them. -/
theorem index_le_maxIndex (hfits : text.Fits)
    (ha : a ∈ (ofText options text).tree.artifacts fileName) (hkind : a.kind = .block index) :
    index ≤ VirtualFile.maxIndex := by
  have hlt := index_lt_tokenLimit ha hkind
  unfold tokenLimit at hlt
  unfold Text.Fits at hfits
  unfold VirtualFile.maxIndex
  omega

end Parse

end HybridMarkup
