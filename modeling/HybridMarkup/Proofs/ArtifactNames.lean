/-
The names of generated files.

Every artifact is named by the path of its document with an ending behind it, and no two artifacts
of a document have the same ending: the endings of the blocks tell their numbers, and those of the
others are a few fixed texts without a number (`artifacts_named`). So whatever the document's path,
the generated files have different paths, in any normal form.
-/
import HybridMarkup.Artifact.All
import HybridMarkup.Proofs.Paths

set_option autoImplicit false

namespace HybridMarkup

open Text

/-! ## Endings -/

/-- The digits behind the first character of an ending. -/
def endingNumber (ending : Text) : Text := (ending.drop 1).takeWhile Char.isDigit

theorem isDigit_of_mem_ofNat {n : Nat} {c : Char} (h : c ∈ Text.ofNat n) : c.isDigit = true :=
  Nat.isDigit_of_mem_toDigits (by decide) (by decide) h

theorem ofNat_injective {m n : Nat} (h : Text.ofNat m = Text.ofNat n) : m = n := by
  have hdigits := congrArg (fun digits => Nat.ofDigitChars 10 digits 0) h
  simpa only [Text.ofNat, Nat.ofDigitChars_toDigits (show 1 < 10 by decide) (Nat.le_refl 10)]
    using hdigits

/-- **The ending of a block tells its number.** -/
theorem endingNumber_block (index : Nat) (language : HostLanguage) :
    endingNumber (blockNameEnd index language) = Text.ofNat index := by
  have hrest : (blockSuffix ++ '.' :: language.extension).takeWhile Char.isDigit = [] := rfl
  rw [endingNumber, blockNameEnd, List.append_assoc, List.cons_append, List.drop_succ_cons,
    List.drop_zero, List.takeWhile_append_of_pos fun c hc => isDigit_of_mem_ofNat hc, hrest,
    List.append_nil]

theorem isEnding_block (index : Nat) (language : HostLanguage) :
    Path.IsEnding (blockNameEnd index language) := by
  have hdigits : '/' ∉ Text.ofNat index := fun h => absurd (isDigit_of_mem_ofNat h) (by decide)
  have hrest : '/' ∉ blockSuffix ++ '.' :: language.extension := by cases language <;> decide
  refine ⟨?_, ?_⟩
  · rw [blockNameEnd, List.append_assoc, List.cons_append, List.mem_cons, List.mem_append]
    rintro (h | h | h)
    · exact absurd h (by decide)
    · exact hdigits h
    · exact hrest h
  · rw [blockNameEnd, List.append_assoc, List.cons_append, List.length_cons, List.length_append,
      List.length_append]
    have : blockSuffix.length = 7 := rfl
    omega

instance (ending : Text) : Decidable (Path.IsEnding ending) :=
  decidable_of_iff ('/' ∉ ending ∧ 2 < ending.length)
    ⟨fun h => ⟨h.1, h.2⟩, fun h => ⟨h.free, h.long⟩⟩

/-! ## The names of blocks -/

namespace ProseArtifacts

/-- The blocks are named by their numbers. -/
def Numbered (fileName : Text) (blocks : List (Text × CodeGen)) : Prop :=
  ∃ languages : List HostLanguage, blocks.map Prod.fst
    = (languages.mapIdx blockNameEnd).map (fileName ++ ·)

theorem hostBlock_numbered {fileName : Text} {out : Output} (h : Numbered fileName out.blocks)
    (block : CodeBlock) (start : Nat) (language : HostLanguage) :
    Numbered fileName (hostBlock fileName out block start language).blocks := by
  obtain ⟨languages, hnames⟩ := h
  have hlength : out.blocks.length = languages.length := by
    simpa using congrArg List.length hnames
  refine ⟨languages ++ [language], ?_⟩
  rw [hostBlock, List.map_append, hnames, List.mapIdx_append, List.map_append]
  simp [hlength]

theorem emit_numbered (t : Tree) {fileName : Text} (fuel : Nat) :
    ∀ {out : Output} (id : Nat), Numbered fileName out.blocks →
      Numbered fileName (emit t fileName fuel out id).blocks := by
  induction fuel with
  | zero => exact fun _ h => h
  | succ fuel ih =>
    intro out id h
    unfold emit
    split
    · exact List.foldlRecOn (motive := fun out : Output => Numbered fileName out.blocks)
        (t.children id) (emit t fileName fuel) h fun _ h child _ => ih child h
    · exact h
    · exact h
    · exact h
    · exact h
    · split
      · exact hostBlock_numbered h _ _ _
      · exact h
    · exact h

theorem output_numbered (t : Tree) (fileName : Text) :
    Numbered fileName (output t fileName).blocks :=
  List.foldlRecOn (motive := fun out : Output => Numbered fileName out.blocks)
    (t.children Tree.root) (emit t fileName t.size) ⟨[], rfl⟩ fun _ h child _ =>
      emit_numbered t t.size child h

theorem blockArtifacts_names (blocks : List (Text × CodeGen)) :
    ∀ index, (blockArtifacts index blocks).map Artifact.fileName = blocks.map Prod.fst := by
  induction blocks with
  | nil => exact fun _ => rfl
  | cons block blocks ih =>
    intro index
    rw [blockArtifacts, List.map_cons, ih, List.map_cons]
    rfl

end ProseArtifacts

/-! ## The names of all artifacts -/

/-- Endings of blocks and then a few others, all different. -/
theorem endings_nodup (languages : List HostLanguage) {others : List Text} (h : others.Nodup)
    (hnone : ∀ ending ∈ others, endingNumber ending = []) :
    (languages.mapIdx blockNameEnd ++ others).Nodup := by
  refine List.nodup_append.2 ⟨List.pairwise_iff_getElem.2 fun i j hi hj hlt heq => ?_, h, ?_⟩
  · rw [List.getElem_mapIdx, List.getElem_mapIdx] at heq
    have hnumbers := congrArg endingNumber heq
    rw [endingNumber_block, endingNumber_block] at hnumbers
    exact Nat.ne_of_lt hlt (ofNat_injective hnumbers)
  · rintro ending hending _ hother rfl
    obtain ⟨i, _, rfl⟩ := List.mem_mapIdx.1 hending
    have hnumber := hnone _ hother
    rw [endingNumber_block] at hnumber
    exact Nat.toDigits_ne_nil hnumber

/-- The endings of prose artifacts that are no blocks. -/
def proseEndings (dialect : Dialect) : List Text :=
  [proseScriptSuffix, proseSuffix] ++ if dialect = .mdx then [indexSuffix] else []

theorem ProseArtifacts.ofTree_names (t : Tree) (fileName : Text) :
    ∃ languages : List HostLanguage, (ofTree t fileName).map Artifact.fileName
      = (languages.mapIdx blockNameEnd ++ proseEndings t.dialect).map (fileName ++ ·) := by
  obtain ⟨languages, hnames⟩ := output_numbered t fileName
  refine ⟨languages, ?_⟩
  unfold ofTree proseEndings
  dsimp only
  rw [List.map_append, List.map_append, blockArtifacts_names, hnames, List.map_append,
    List.map_append, List.append_assoc]
  by_cases hdialect : t.dialect = .mdx
  · rw [if_pos hdialect, if_pos hdialect]
    rfl
  · rw [if_neg hdialect, if_neg hdialect]
    rfl

theorem TemplateArtifact.ofTree_name (t : Tree) (fileName : Text) :
    ∃ language : HostLanguage, (ofTree t fileName).fileName
      = fileName ++ (templateScriptSuffix ++ '.' :: language.extension) := by
  simp only [ofTree, CodeGen.artifact, List.append_assoc]
  split
  · exact ⟨.ts, rfl⟩
  · exact ⟨.js, rfl⟩

/-- **Artifacts are named by the document and an ending**, and no ending is used twice. -/
theorem Tree.artifacts_named (t : Tree) (fileName : Text) :
    ∃ endings : List Text, (t.artifacts fileName).map Artifact.fileName
        = endings.map (fileName ++ ·) ∧
      endings.Nodup ∧ ∀ ending ∈ endings, Path.IsEnding ending := by
  have hprose : ∃ endings : List Text, (ProseArtifacts.ofTree t fileName).map Artifact.fileName
        = endings.map (fileName ++ ·) ∧
      endings.Nodup ∧ ∀ ending ∈ endings, Path.IsEnding ending := by
    obtain ⟨languages, hnames⟩ := ProseArtifacts.ofTree_names t fileName
    have hothers : (proseEndings t.dialect).Nodup ∧
        (∀ ending ∈ proseEndings t.dialect, endingNumber ending = []) ∧
        ∀ ending ∈ proseEndings t.dialect, Path.IsEnding ending := by
      cases t.dialect <;> decide
    refine ⟨_, hnames, endings_nodup languages hothers.1 hothers.2.1, fun ending hending => ?_⟩
    rcases List.mem_append.1 hending with hending | hending
    · obtain ⟨i, _, rfl⟩ := List.mem_mapIdx.1 hending
      exact isEnding_block i _
    · exact hothers.2.2 ending hending
  unfold Tree.artifacts
  split
  · obtain ⟨language, hname⟩ := TemplateArtifact.ofTree_name t fileName
    refine ⟨[templateScriptSuffix ++ '.' :: language.extension], congrArg (fun name => [name]) hname,
      List.pairwise_singleton _ _, fun ending hending => ?_⟩
    rw [List.mem_singleton.1 hending]
    cases language <;> decide
  · exact hprose
  · exact hprose

/-- Every document gives artifacts. -/
theorem Tree.artifacts_ne_nil (t : Tree) (fileName : Text) : t.artifacts fileName ≠ [] := by
  unfold Tree.artifacts ProseArtifacts.ofTree
  split <;> simp

/-- An artifact with an absolute name is one of a document with an absolute path. -/
theorem Tree.isAbsolute_of_artifact {t : Tree} {path : Path} {a : Artifact}
    (ha : a ∈ t.artifacts path.spelling) (h : (⟨a.fileName⟩ : Path).isAbsolute = true) :
    path.isAbsolute = true := by
  obtain ⟨endings, hnames, _, hendings⟩ := t.artifacts_named path.spelling
  have hname : a.fileName ∈ endings.map (path.spelling ++ ·) :=
    hnames ▸ List.mem_map_of_mem ha
  obtain ⟨ending, hending, heq⟩ := List.mem_map.1 hname
  rw [← heq] at h
  -- the slash at the front is not in the ending
  cases hspelling : path.spelling with
  | nil =>
    rw [hspelling, List.nil_append] at h
    obtain ⟨rest, hrest⟩ := Path.exists_rest h
    rw [Path.mk.injEq] at hrest
    exact absurd (hrest ▸ List.mem_cons_self) (hendings ending hending).free
  | cons c rest =>
    rw [hspelling] at h
    rw [Path.isAbsolute, hspelling]
    exact h

/-- The artifacts of a document with an absolute path have absolute names. -/
theorem Tree.isAbsolute_artifact {t : Tree} {path : Path} (h : path.isAbsolute = true)
    {a : Artifact} (ha : a ∈ t.artifacts path.spelling) :
    (⟨a.fileName⟩ : Path).isAbsolute = true := by
  obtain ⟨rest, rfl⟩ := Path.exists_rest h
  obtain ⟨endings, hnames, -, -⟩ := t.artifacts_named ('/' :: rest)
  obtain ⟨ending, -, hname⟩ := List.mem_map.1 (hnames ▸ List.mem_map_of_mem ha)
  rw [← hname]
  rfl

/-- The places of artifacts in a store. -/
def Artifact.path (a : Artifact) : Path := Path.normalize ⟨a.fileName⟩

/-- No artifact has the place of its document. -/
theorem Tree.artifact_path_ne_normalize {t : Tree} {path : Path} (h : path.isAbsolute = true)
    {a : Artifact} (ha : a ∈ t.artifacts path.spelling) : a.path ≠ path.normalize := by
  obtain ⟨endings, hnames, -, hendings⟩ := t.artifacts_named path.spelling
  obtain ⟨ending, hending, hname⟩ := List.mem_map.1 (hnames ▸ List.mem_map_of_mem ha)
  rw [Artifact.path, ← hname]
  exact Path.normalize_append_ne h (hendings ending hending)

theorem Tree.artifact_path_ne {t : Tree} {path : Path} (h : path.isAbsolute = true)
    (hnormal : path.normalize = path) {a : Artifact} (ha : a ∈ t.artifacts path.spelling) :
    a.path ≠ path := by
  have hne := t.artifact_path_ne_normalize h ha
  rwa [hnormal] at hne

/-- **No two artifacts of a document have the same place**, and they have the places of their names
in any spelling. -/
theorem Tree.artifacts_placed (t : Tree) {path : Path} (h : path.isAbsolute = true) :
    ((t.artifacts path.spelling).map Artifact.path).Nodup := by
  obtain ⟨endings, hnames, hnodup, hendings⟩ := t.artifacts_named path.spelling
  obtain ⟨stem, hstem⟩ := Path.normalize_append h
  have hpaths : (t.artifacts path.spelling).map Artifact.path
      = endings.map fun ending => ⟨stem ++ ending⟩ := by
    have hmap := congrArg (List.map fun name => Path.normalize ⟨name⟩) hnames
    rw [List.map_map, List.map_map] at hmap
    exact hmap.trans (List.map_congr_left fun ending hending => hstem ending (hendings _ hending))
  rw [hpaths]
  refine List.Pairwise.map _ (fun ending ending' hne heq => hne ?_) hnodup
  exact List.append_cancel_left (congrArg Path.spelling heq)

end HybridMarkup
