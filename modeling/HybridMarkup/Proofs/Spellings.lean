/-
Spellings of paths.

Everything in a workspace goes by the normal form of paths, but what a generated path is generated
from is read off the file name as it stands. So a path has to be recognised however it is spelled,
and without its normal form being taken first: an absolute path has the file name of its normal
form (`Path.fileName?_normalize`), and a file name may be replaced before that is taken or
afterwards (`Path.normalize_withFileName`).

With that the paths from which a workspace finds the way back to a source are known exactly: they
are the spellings of the paths of what the source files list (`InOrder.sourceForVirtual?_iff`).
-/
import HybridMarkup.Proofs.Coherence

set_option autoImplicit false

namespace HybridMarkup

open Text

namespace Path

/-! ## Replacing file names -/

/-- The file name is the last component. -/
theorem components_of_fileName? {p : Path} {name : Text} (h : p.fileName? = some name) :
    p.components = p.components.dropLast ++ [.normal name] := by
  unfold fileName? at h
  split at h
  · next heq =>
    obtain rfl := Option.some.inj h
    exact (List.dropLast_append_getLast? _ heq).symm
  · contradiction

theorem free_of_fileName? {p : Path} {name : Text} (h : p.fileName? = some name) : '/' ∉ name := by
  have hmem : Component.normal name ∈ p.components := by
    rw [components_of_fileName? h]
    exact List.mem_append_right _ (List.mem_singleton_self _)
  rcases List.mem_append.1 hmem with hmem | hmem
  · unfold frontComponent? at hmem
    split at hmem <;> simp at hmem
  · obtain ⟨part, hpart, hcounts⟩ := List.mem_filterMap.1 hmem
    obtain rfl := Component.eq_of_ofPart? hcounts
    exact not_mem_of_mem_splitAt hpart

variable {p : Path} (h : p.isAbsolute = true) {name : Text} (hfile : p.fileName? = some name)

include h hfile

/-- **What replaces a file name** takes the place of the last component, if it counts. -/
theorem components_withFileName {other : Text} (hother : '/' ∉ other) :
    (p.withFileName other).components
      = p.components.dropLast ++ (Component.ofPart? other).toList := by
  rw [withFileName_eq h (Option.isSome_of_eq_some hfile) hother]
  obtain ⟨rest, rfl⟩ := exists_rest h
  rw [components_absolute, components_absolute]
  change _ :: (splitAt '/' (List.intercalate ['/']
    (trimParts (trimParts (splitAt '/' rest)).dropLast ++ [other]))).filterMap _ = _
  have hfree (part : Text) (hpart : part ∈ splitAt '/' rest) : '/' ∉ part :=
    not_mem_of_mem_splitAt hpart
  generalize hparts : splitAt '/' rest = parts at hfree
  rcases trimParts_cases parts with ⟨-, hnone⟩ | ⟨init, last, c, behind, htrim, hlast, rfl, hnone⟩
  -- without a part that counts there is no file name
  · rw [fileName?, components_absolute, hparts, List.filterMap_eq_nil_iff.2 hnone] at hfile
    simp at hfile
  · have hkept : ∀ part ∈ trimParts init ++ [other], '/' ∉ part := by
      refine List.forall_mem_append.2 ⟨fun part hpart => ?_, List.forall_mem_singleton.2 hother⟩
      exact hfree part (List.mem_append_left _ (mem_of_mem_trimParts hpart))
    rw [htrim, List.dropLast_concat, splitAt_eq_splitOn,
      List.splitOn_intercalate '/' hkept (by simp), List.filterMap_append, filterMap_trimParts,
      List.filterMap_append, List.filterMap_cons_some hlast, List.filterMap_eq_nil_iff.2 hnone,
      ← List.cons_append, ← List.cons_append, List.dropLast_concat]
    cases hcounts : Component.ofPart? other with
    | none => rw [List.filterMap_cons_none hcounts]; rfl
    | some c => rw [List.filterMap_cons_some hcounts]; rfl

/-- The components of the normal form: the names up to the last one, and the file name. -/
theorem components_normalize :
    p.normalize.components
      = (.root :: (resolve [] p.components.dropLast).reverse.map .normal) ++ [.normal name] := by
  have hnames : p.names = (resolve [] p.components.dropLast).reverse ++ [name] := by
    rw [names, components_of_fileName? hfile, resolve_append, List.dropLast_concat]
    exact List.reverse_cons
  rw [normalize_absolute h, components_absolute,
    splitAt_spelled fun name hname => isName_of_mem_names hname, hnames, List.map_append]
  rfl

/-- **The file name** is the same in normal form. -/
theorem fileName?_normalize : p.normalize.fileName? = some name := by
  rw [fileName?, components_normalize h hfile, List.getLast?_concat]

/-- **A file name is replaced** in normal form as it is in the path as it is spelled. -/
theorem normalize_withFileName {other : Text} (hother : '/' ∉ other) :
    (p.normalize.withFileName other).normalize = (p.withFileName other).normalize := by
  have habsolute {q : Path} (hq : q.isAbsolute = true) {last : Text}
      (hlast : q.fileName? = some last) : (q.withFileName other).isAbsolute = true := by
    rw [withFileName_eq hq (Option.isSome_of_eq_some hlast) hother]
    rfl
  have hnormal := isAbsolute_normalize h
  have hname := fileName?_normalize h hfile
  rw [normalize_absolute (habsolute hnormal hname), normalize_absolute (habsolute h hfile), names,
    names, components_withFileName hnormal hname hother, components_withFileName h hfile hother,
    components_normalize h hfile, List.dropLast_concat, resolve_append, resolve_append, resolve,
    resolve_names, List.reverse_reverse, List.append_nil]

end Path

/-! ## Recognising generated paths -/

/-- A name that is taken apart has no other characters than the whole had. -/
theorem VirtualFile.mem_of_splitName? {kind : ArtifactKind} {stem : Text} {c : Char}
    (hc : c ∈ stem) {name : Text} :
    ∀ {front : Text}, splitName? front name = some (kind, stem) → c ∈ front ∨ c ∈ name := by
  induction name with
  | nil => exact fun h => by simp [splitName?] at h
  | cons d name ih =>
    intro front h
    unfold splitName? at h
    split at h
    · contradiction
    · split at h
      · obtain ⟨-, rfl⟩ := Prod.mk.inj (Option.some.inj h)
        exact (List.mem_cons.1 (List.mem_reverse.1 hc)).elim
          (fun heq => .inr (heq ▸ List.mem_cons_self)) .inl
      · rcases ih h with hfront | hname
        · exact (List.mem_cons.1 hfront).elim (fun heq => .inr (heq ▸ List.mem_cons_self)) .inl
        · exact .inr (List.mem_cons_of_mem d hname)

/-- Two paths are spellings of one: they have the same normal form and the same file name. A path
that ends in two periods has no file name, so it is no spelling of its normal form. -/
def Path.SameFile (p q : Path) : Prop := p.normalize = q.normalize ∧ p.fileName? = q.fileName?

instance (p q : Path) : Decidable (p.SameFile q) :=
  inferInstanceAs (Decidable (p.normalize = q.normalize ∧ p.fileName? = q.fileName?))

/-- What a source file lists lies under absolute paths. -/
theorem SourceFile.InStep.isAbsolute {f : SourceFile} {o : Overlay} (h : f.InStep o)
    {c : VirtualCode} (hc : c ∈ f.codes) : c.path.isAbsolute = true := by
  obtain ⟨text, -, hreflects⟩ := h.reflects hc
  obtain ⟨a, -, hholds⟩ := exists_of_holds hreflects.holds hc
  rw [hholds.path_eq]
  exact Path.isAbsolute_normalize hholds.absolute

namespace Workspace

/-- **A generated path is recognised however it is spelled.** -/
theorem sourceForVirtual?_normalize (w : Workspace) {p : Path} (h : p.isAbsolute = true)
    {name : Text} (hfile : p.fileName? = some name) :
    w.sourceForVirtual? p.normalize = w.sourceForVirtual? p := by
  have hvirtual (f : SourceFile) : f.virtualCode? p.normalize = f.virtualCode? p := by
    rw [SourceFile.virtualCode?, Path.normalize_normalize]
    rfl
  rw [sourceForVirtual?, sourceForVirtual?, VirtualFile.ofPath?, VirtualFile.ofPath?, hfile,
    Path.fileName?_normalize h hfile, Option.bind_some]
  cases hsplit : VirtualFile.splitName? [] name with
  | none => rfl
  | some v =>
    obtain ⟨kind, stem⟩ := v
    have hfree : '/' ∉ stem := fun hslash =>
      Path.free_of_fileName? hfile
        ((VirtualFile.mem_of_splitName? hslash hsplit).resolve_left List.not_mem_nil)
    simp only [Option.bind_some, sourceFile?, Path.normalize_withFileName h hfile hfree, hvirtual]

variable {config : Config} {places isOpen : Path → Prop} {w : Workspace} {f : SourceFile}
  {c : VirtualCode}

/-- **The way back to a source.** From a path one is led to a source file and to what it lists just
when the path is a spelling of the path of that. -/
theorem InOrder.sourceForVirtual?_iff (hplaces : Apart places)
    (h : w.InOrder config places isOpen) {p : Path} :
    w.sourceForVirtual? p = some (f, c) ↔ f ∈ w.files ∧ c ∈ f.codes ∧ p.SameFile c.path := by
  have hlisted (hf : f ∈ w.files) (hc : c ∈ f.codes) :
      c.path.normalize = c.path ∧ (p.normalize = c.path → p.isAbsolute = true) := by
    have hinStep := (h.settled hf).inStep
    refine ⟨(hinStep.placed hc).1, fun heq => ?_⟩
    rw [← (Path.names_normalize p).1, heq]
    exact hinStep.isAbsolute hc
  constructor
  · intro hback
    obtain ⟨v, hv, hback⟩ := Option.bind_eq_some_iff.1 hback
    obtain ⟨owner, howner, hback⟩ := Option.bind_eq_some_iff.1 hback
    obtain ⟨code, hcode, hback⟩ := Option.map_eq_some_iff.1 hback
    obtain ⟨rfl, rfl⟩ := Prod.mk.inj hback
    have hf : owner ∈ w.files := (mem_of_held? howner).1
    have hc : code ∈ owner.codes := List.mem_of_find?_eq_some hcode
    have hpath : code.path = p.normalize := by simpa using List.find?_some hcode
    obtain ⟨hnormal, habsolute⟩ := hlisted hf hc
    obtain ⟨name, hname⟩ : ∃ name, p.fileName? = some name := by
      cases hfile : p.fileName? with
      | none => simp [VirtualFile.ofPath?, hfile] at hv
      | some name => exact ⟨name, rfl⟩
    refine ⟨hf, hc, hpath.symm.trans hnormal.symm, ?_⟩
    rw [hpath, Path.fileName?_normalize (habsolute hpath.symm) hname, hname]
  · rintro ⟨hf, hc, hpath, hfile⟩
    obtain ⟨hnormal, habsolute⟩ := hlisted hf hc
    have hback := h.sourceForVirtual?_path hplaces hf hc
    obtain ⟨name, hname⟩ : ∃ name, c.path.fileName? = some name := by
      cases hfile : c.path.fileName? with
      | none => simp [sourceForVirtual?, VirtualFile.ofPath?, hfile] at hback
      | some name => exact ⟨name, rfl⟩
    rw [hnormal] at hpath
    rwa [← w.sourceForVirtual?_normalize (habsolute hpath) (hfile.trans hname), hpath]

end Workspace

end HybridMarkup
