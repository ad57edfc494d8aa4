/-
Where a generated file comes from can be read off its name.

That the name of a document comes back from that of a generated file is known for names without a
line feed (`VirtualFile.ofPath?_append`). Here the other case is added: a name with a line feed in it
is never taken apart (`VirtualFile.splitName?_eq_none`). So it is settled for every document what
becomes of the names of its artifacts. Names that are taken apart tell their documents, and within a
document no name is used twice; so no two artifacts of any documents share one.

Main statement: `Parse.artifact_origins`.
-/
import HybridMarkup.Proofs.GeneratedNames

set_option autoImplicit false

namespace HybridMarkup

open Text

namespace VirtualFile

/-! ## Names with a line feed -/

/-- An ending is written on one line. -/
theorem line_not_mem_of_looksLikeEnding {ending : Text} (h : LooksLikeEnding ending) :
    '\n' ∉ ending := by
  cases h with
  | fixed h => exact (show ∀ t ∈ fixedEndings, '\n' ∉ t by decide) ending h
  | @numbered digits language _ hdigits =>
    have htail : '\n' ∉ language.blockTail := by cases language <;> decide
    have hnumber : '\n' ∉ digits := fun hmem => absurd (hdigits _ hmem) (by decide)
    simp [hnumber, htail]

/-- **A name with a line feed is not taken apart**, wherever in it the line feed is: not in front of
an ending, where the search is given up, and not within one. -/
theorem splitName?_eq_none {name : Text} (hline : '\n' ∈ name) (front : Text) :
    splitName? front name = none := by
  induction name generalizing front with
  | nil => exact absurd hline List.not_mem_nil
  | cons c name ih =>
    by_cases hc : c = '\n'
    · rw [splitName?, if_pos hc]
    · have hrest : '\n' ∈ name := (List.mem_cons.1 hline).resolve_left (Ne.symm hc)
      have hnone : ofEnding? name = none := by
        cases hkind : ofEnding? name with
        | none => rfl
        | some kind =>
          exact absurd hrest (line_not_mem_of_looksLikeEnding (looksLikeEnding_of_ofEnding? hkind))
      rw [splitName?, if_neg hc, hnone]
      exact ih hrest (c :: front)

/-- What is generated from a document with a line feed in its name is not recognised. -/
theorem ofPath?_append_eq_none {p : Path} (h : p.isAbsolute = true) (hnormal : p.normalize = p)
    {name ending : Text} (hname : p.fileName? = some name) (hline : '\n' ∈ name)
    (hending : Path.IsEnding ending) : ofPath? ⟨p.spelling ++ ending⟩ = none := by
  obtain ⟨hfile, _⟩ := Path.fileName?_append h hnormal hname hending
  rw [ofPath?, hfile, Option.bind_some, splitName?_eq_none (List.mem_append_left ending hline)]

end VirtualFile

/-! ## All documents -/

/-- The path of a document, spelled in normal form from the root on, with its file name. -/
structure Path.LeadsTo (p : Path) (name : Text) : Prop where
  absolute : p.isAbsolute = true
  normal : p.normalize = p
  named : p.fileName? = some name

namespace Parse

variable {options : ParseOptions} {text name : Text} {p : Path} {a : Artifact}

/-- The name of an artifact tells what it is and where it is from, unless there is a line feed in the
name of its document. -/
theorem ofPath?_artifact (hfits : text.Fits) (hp : p.LeadsTo name)
    (ha : a ∈ (ofText options text).tree.artifacts p.spelling) :
    VirtualFile.ofPath? ⟨a.fileName⟩ = if '\n' ∈ name then none else some ⟨a.kind, p⟩ := by
  obtain ⟨ending, hending, hfile⟩ := Tree.artifact_ending ha
  rw [hfile]
  split
  · next hline =>
    exact VirtualFile.ofPath?_append_eq_none hp.absolute hp.normal hp.named hline hending.isEnding
  · next hline =>
    exact VirtualFile.ofPath?_append hp.absolute hp.normal hp.named hline hending
      fun index hkind => index_le_maxIndex hfits ha hkind

/-- Within a document no two artifacts have the same name. -/
theorem index_eq_of_fileName {b : Artifact} {i j : Nat} {fileName : Text}
    (ha : ((ofText options text).tree.artifacts fileName)[i]? = some a)
    (hb : ((ofText options text).tree.artifacts fileName)[j]? = some b)
    (hsame : a.fileName = b.fileName) : i = j := by
  obtain ⟨endings, hnames, hnodup, -⟩ := (ofText options text).tree.artifacts_named fileName
  have hnodup : (((ofText options text).tree.artifacts fileName).map Artifact.fileName).Nodup :=
    hnames ▸ List.Pairwise.map _ (fun _ _ hne h => hne (List.append_cancel_left h)) hnodup
  have hname {k : Nat} {c : Artifact}
      (hc : ((ofText options text).tree.artifacts fileName)[k]? = some c) :
      (((ofText options text).tree.artifacts fileName).map Artifact.fileName)[k]?
        = some c.fileName := by
    rw [List.getElem?_map, hc]
    rfl
  refine (List.getElem?_inj (List.getElem?_eq_some_iff.1 (hname ha)).1 hnodup).1 ?_
  rw [hname ha, hname hb, hsame]

/-- **The name of a generated file tells its origin.** Let there be a document under every path. The
name of each of its artifacts gives back the kind of the artifact and the path, however the file name
looks, unless there is a line feed in it, in which case the artifact is taken for a document. So
among all documents without a line feed in their names no two artifacts have the same name. -/
theorem artifact_origins (options : Path → ParseOptions) (texts : Path → Text)
    (hfits : ∀ p, (texts p).Fits) :
    let made := fun p : Path => (ofText (options p) (texts p)).tree.artifacts p.spelling
    (∀ (p : Path) (name : Text), p.LeadsTo name → ∀ a ∈ made p,
      VirtualFile.ofPath? ⟨a.fileName⟩ = if '\n' ∈ name then none else some ⟨a.kind, p⟩) ∧
    (∀ (p q : Path) (name name' : Text), p.LeadsTo name → q.LeadsTo name' → '\n' ∉ name →
      '\n' ∉ name' → ∀ (i j : Nat) (a b : Artifact), (made p)[i]? = some a → (made q)[j]? = some b →
        a.fileName = b.fileName → p = q ∧ i = j) := by
  intro made
  refine ⟨fun p name hp a ha => ofPath?_artifact (hfits p) hp ha, ?_⟩
  intro p q name name' hp hq hline hline' i j a b ha hb hsame
  have hfirst := ofPath?_artifact (hfits p) hp (List.mem_of_getElem? ha)
  have hsecond := ofPath?_artifact (hfits q) hq (List.mem_of_getElem? hb)
  rw [if_neg hline] at hfirst
  rw [if_neg hline', ← hsame, hfirst, Option.some.injEq] at hsecond
  obtain rfl : p = q := congrArg VirtualFile.source hsecond
  exact ⟨rfl, index_eq_of_fileName ha hb hsame⟩

/-- The block of a document whose own name looks like that of a block: the last ending counts, and
the script has another name. -/
theorem artifact_origins_lookalike :
    ∃ a b, ((ofText { dialect := .markdown } "```ts\nx\n```\n".toList).tree.artifacts
        "/d/a.7._md_cb.ts".toList).take 2 = [a, b] ∧
      a.fileName = "/d/a.7._md_cb.ts.0._md_cb.ts".toList ∧
      VirtualFile.ofPath? ⟨a.fileName⟩ = some ⟨.block 0, .ofString "/d/a.7._md_cb.ts"⟩ ∧
      a.fileName ≠ b.fileName := by
  have hfits : Text.Fits "```ts\nx\n```\n".toList := by
    unfold Text.Fits
    decide
  have hp : (Path.ofString "/d/a.7._md_cb.ts").LeadsTo "a.7._md_cb.ts".toList :=
    ⟨by decide, by decide, by decide⟩
  have hline : '\n' ∉ "a.7._md_cb.ts".toList := by decide
  have hnames : ((ofText { dialect := .markdown } "```ts\nx\n```\n".toList).tree.artifacts
      "/d/a.7._md_cb.ts".toList).map (fun a => (a.kind, a.fileName))
        = [(.block 0, "/d/a.7._md_cb.ts.0._md_cb.ts".toList),
          (.script, "/d/a.7._md_cb.ts._mdx.jsx".toList),
          (.prose, "/d/a.7._md_cb.ts._mdx.md".toList)] := by
    decide +kernel
  obtain ⟨a, rest, hlist, ha, hrest⟩ := List.map_eq_cons_iff.1 hnames
  obtain ⟨b, rest, rfl, -, -⟩ := List.map_eq_cons_iff.1 hrest
  obtain ⟨hkind, hname⟩ := Prod.mk.inj ha
  obtain ⟨hdecode, hapart⟩ := artifact_origins (fun _ => { dialect := .markdown })
    (fun _ => "```ts\nx\n```\n".toList) fun _ => hfits
  have horigin := hdecode (.ofString "/d/a.7._md_cb.ts") _ hp a
    (List.mem_of_getElem? (congrArg (·[0]?) hlist))
  rw [if_neg hline, hkind] at horigin
  refine ⟨a, b, by rw [hlist]; rfl, hname, horigin, fun hsame => ?_⟩
  have hindex := (hapart _ _ _ _ hp hp hline hline 0 1 a b (congrArg (·[0]?) hlist)
    (congrArg (·[1]?) hlist) hsame).2
  contradiction

end Parse

end HybridMarkup
