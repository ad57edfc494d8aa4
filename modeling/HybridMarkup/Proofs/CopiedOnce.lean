/-
Nothing authored is lost or copied twice.

What is copied from a document is a rearrangement of what its tokens say: of their authored parts
in prose, and of the code that belongs into the script in a template. Tokens lie one behind the
other, so no two copies have anything in common; and where the scanner comes to the end of the
text, the tokens are all there are.
-/
import HybridMarkup.Proofs.TemplateCopies
import HybridMarkup.Proofs.Tiling

set_option autoImplicit false

namespace HybridMarkup

open Text

/-! ## The tokens of a document -/

namespace Scanner

/-- The scanner comes to the end of the text. -/
def ReachesEnd (dialect : Dialect) (text : Text) : Prop :=
  ∃ n, ((start dialect text).after n).scan.1.kind = .eos

/-- The tokens are listed up to the end of the text. -/
def ListsAll (dialect : Dialect) (text : Text) : Prop :=
  ∃ n, tokenize dialect text = (start dialect text).tokens (n + 1) ∧
    ((start dialect text).after n).scan.1.kind = .eos

/-- Where the end is reached, no value stands still on the way. -/
theorem ReachesEnd.not_stalls {dialect : Dialect} {text : Text} (h : ReachesEnd dialect text)
    (n : Nat) : ¬ ((start dialect text).after n).Stalls := by
  intro hstalls
  obtain ⟨k, hk⟩ := h
  -- both go on for ever, so one of them would have to be the other
  have hend := after_at_end ((scan_kind_eq_eos_iff _).1 hk) n
  have hvalue := hstalls.after k
  rw [← after_add] at hend hvalue
  rw [Nat.add_comm n k, hend] at hvalue
  have hkind := hstalls.1
  rw [← hvalue] at hkind
  simp at hkind

theorem ReachesEnd.listsAll {dialect : Dialect} {text : Text} (h : ReachesEnd dialect text) :
    ListsAll dialect text := by
  obtain ⟨n, hn, heos⟩ := eos_reached dialect text h.not_stalls
  exact tokensIn_eq_tokens (Nat.lt_succ_of_le hn) heos

/-- The tokens of a run follow each other. -/
theorem tokensIn_ordered (fuel : Nat) (s : Scanner) :
    (∀ t ∈ s.tokensIn fuel, s.offset ≤ t.span.start) ∧
      (s.tokensIn fuel).Pairwise fun a b => a.span.stop ≤ b.span.start := by
  induction fuel generalizing s with
  | zero => exact ⟨fun _ h => absurd h List.not_mem_nil, .nil⟩
  | succ fuel ih =>
    obtain ⟨hspan, hoffset⟩ := s.scan_span
    have hstart : s.scan.1.span.start = s.offset := by rw [hspan]
    have hstop : s.scan.1.span.stop = s.scan.2.offset := by rw [hspan]
    obtain ⟨hbehind, hordered⟩ := ih s.scan.2
    unfold tokensIn
    dsimp only
    split
    · refine ⟨fun t ht => ?_, List.pairwise_singleton _ _⟩
      rw [List.mem_singleton.1 ht]
      exact Nat.le_of_eq hstart.symm
    · refine ⟨fun t ht => ?_, List.pairwise_cons.2 ⟨fun t ht => ?_, hordered⟩⟩
      · rcases List.mem_cons.1 ht with rfl | ht
        · exact Nat.le_of_eq hstart.symm
        · exact Nat.le_trans (hoffset ▸ Nat.le_add_right _ _) (hbehind t ht)
      · rw [hstop]
        exact hbehind t ht

end Scanner

theorem Span.apart_of_ordered {spans : List Span}
    (h : spans.Pairwise fun a b => a.stop ≤ b.start) : spans.Pairwise Span.Apart :=
  h.imp Or.inl

/-! ## Prose -/

namespace ProseArtifacts

variable {dialect : Dialect} {text : Text}

/-- In prose no value stands still. -/
theorem reachesEnd (prose : dialect ≠ .template) (text : Text) :
    Scanner.ReachesEnd dialect text := by
  have hsynced (n : Nat) : ∃ deal d,
      let s := (Scanner.start dialect text).after n
      s.Within text ∧ s.dialect = dialect ∧
        Synced dialect text s.memory s.rest s.offset deal d := by
    refine Scanner.after_keeps (P := fun s => ∃ deal d, s.Within text ∧ s.dialect = dialect ∧
      Synced dialect text s.memory s.rest s.offset deal d) ?_ ?_ n
    · rintro s ⟨deal, d, hwithin, hdialect, hs⟩
      exact ⟨_, _, hwithin.scan, s.scan_dialect.trans hdialect, hs.scan prose hwithin hdialect⟩
    · exact ⟨{}, Draft.start dialect text, Scanner.start_within dialect text, rfl,
        Draft.stands_start pieces dialect text⟩
  obtain ⟨n, _, heos⟩ := Scanner.eos_reached dialect text fun n hstalls => by
    obtain ⟨_, _, _, _, hs⟩ := hsynced n
    exact hs.not_stalls hstalls
  exact ⟨n, heos⟩

/-- What is copied of a token lies in it. -/
theorem authored?_within {t : Token} {source : Span} (h : authored? t = some source) :
    t.span.start ≤ source.start ∧ source.stop ≤ t.span.stop := by
  unfold authored? at h
  split at h
  all_goals first | contradiction | skip
  all_goals rw [Option.some.injEq] at h; subst h
  · exact ⟨Nat.le_refl _, Nat.le_refl _⟩
  · exact ⟨Nat.le_refl _, Nat.le_refl _⟩
  · exact ⟨Nat.le_refl _, Nat.le_refl _⟩
  · exact ⟨Nat.le_refl _, Nat.le_refl _⟩
  -- of an expression the braces are not copied, and the last of them may be missing
  · refine ⟨Nat.le_succ _, ?_⟩
    unfold Token.interior
    dsimp only
    split
    · exact Nat.sub_le _ _
    · exact Nat.le_refl _

/-- The authored parts of the tokens of a document have nothing in common. -/
theorem authored?_apart (dialect : Dialect) (text : Text) :
    (covering ((tokenize dialect text).filterMap authored?)).Pairwise Span.Apart := by
  have hordered : ((tokenize dialect text).filterMap authored?).Pairwise
      fun a b => a.stop ≤ b.start := by
    refine List.pairwise_filterMap.2 ?_
    refine (Scanner.tokensIn_ordered (tokenLimit text) (Scanner.start dialect text)).2.imp ?_
    intro a b hab source hsource source' hsource'
    have hstop := (authored?_within hsource).2
    have hstart := (authored?_within hsource').1
    omega
  exact (Span.apart_of_ordered hordered).filter _

/-- The artifacts of prose are dealt out over it. -/
theorem artifacts_eq_ofTree {pos : Nat} {path : List NodeKind} {ps : List Piece} {text : Text}
    {d : Draft} (prose : dialect ≠ .template) (h : d.Stands pieces dialect text pos path ps)
    (fileName : Text) : d.tree.artifacts fileName = ofTree d.tree fileName := by
  unfold Tree.artifacts
  rw [h.dialect_eq]
  cases dialect with
  | template => exact absurd rfl prose
  | markdown | mdx => rfl

/-- **What is copied from prose.** -/
theorem artifacts_dealtOut (prose : dialect ≠ .template) (text fileName : Text) :
    ((Parse.draft dialect text).tree.artifacts fileName).map (fun a => (a.kind, a.copied))
      = dealtOut dialect ((tokenize dialect text).foldl Deal.take {}).pieces := by
  obtain ⟨pos, path, hstands⟩ := pieces_of_tree prose text
  rw [artifacts_eq_ofTree prose hstands, ofTree_dealtOut (output_holds prose hstands fileName),
    hstands.dialect_eq]

theorem artifacts_perm (prose : dialect ≠ .template) (text fileName : Text) :
    (((Parse.draft dialect text).tree.artifacts fileName).flatMap Artifact.copied).Perm
      (covering ((tokenize dialect text).filterMap authored?)) := by
  -- the kinds of the artifacts do not matter to what is copied over all of them
  have hcopied (as : List Artifact) :
      as.flatMap Artifact.copied = (as.map fun a => (a.kind, a.copied)).flatMap Prod.snd := by
    rw [List.flatMap_map]
  rw [hcopied, artifacts_dealtOut prose]
  refine (dealtOut_perm dialect _).trans (.of_eq ?_)
  rw [source?_foldl_take]
  rfl

end ProseArtifacts

/-! ## Templates -/

namespace TemplateArtifact

/-- The pieces of a template are tokens of it. -/
theorem pieces_sublist (ts : List Token) (r : Reading) :
    ((ts.foldl Reading.take r).pieces.map Piece.source).Sublist
      (r.pieces.map Piece.source ++ ts.map Token.span) := by
  have hlist (p : Piece) : (p.list.map Piece.source).Sublist [p.source] := by
    unfold Piece.list
    split
    · exact .refl _
    · exact List.nil_sublist _
  have htoken (inDirective : Bool) (owner : Nat) (t : Token) :
      ((tokenPiece inDirective owner t).map Piece.source).Sublist [t.span] := by
    unfold tokenPiece
    split
    · exact hlist _
    · exact hlist _
    · split
      · exact hlist _
      · exact List.nil_sublist _
    · exact List.nil_sublist _
  induction ts generalizing r with
  | nil => simp
  | cons t ts ih =>
    refine (ih (r.take t)).trans ?_
    rw [Reading.take, List.map_append, List.append_assoc, List.map_cons]
    exact ((htoken _ _ t).append (.refl (ts.map Token.span))).append_left _

theorem pieces_apart (text : Text) :
    ((Reading.ofText text).pieces.map Piece.source).Pairwise Span.Apart := by
  have hordered : ((tokenize .template text).map Token.span).Pairwise fun a b => a.stop ≤ b.start :=
    List.pairwise_map.2
      (Scanner.tokensIn_ordered (tokenLimit text) (Scanner.start .template text)).2
  exact (Span.apart_of_ordered hordered).sublist (pieces_sublist (tokenize .template text) _)

/-- **What is copied from a template.** -/
theorem artifacts_perm (text fileName : Text) :
    ((Parse.draft .template text).tree.artifacts fileName).map Artifact.kind = [.script] ∧
      (((Parse.draft .template text).tree.artifacts fileName).flatMap Artifact.copied).Perm
        (((Reading.ofText text).pieces.filter
          (Piece.inScript (Parse.draft .template text).tree)).map Piece.source) := by
  obtain ⟨pos, path, hstands⟩ := pieces_of_tree text
  have hperm := ofTree_copied_perm hstands fileName
  unfold Tree.artifacts
  rw [hstands.dialect_eq]
  refine ⟨rfl, ?_⟩
  rw [List.flatMap_singleton]
  exact hperm

end TemplateArtifact

/-! ## All documents -/

/-- **Nothing authored is lost or copied twice.** Over all artifacts of a document the copied spans
that cover anything have nothing in common. In prose they are the authored parts of the tokens,
each of them once: texts, imports, elements, the insides of expressions and the bodies of fenced
blocks; and they are dealt out as the tokens say, in the order of the document, to a file for each
block of the host language, to the script and to the prose. In a template the code of the tokens is
the code of the nodes, and all of it is copied that belongs into the script, each piece once: the
bodies whose element is a script, and what stands in mustaches and directives that have no script
and no style above them. The tokens are all tokens of the document if the scanner comes to the end
of it, and in prose it always does. -/
theorem authored_copied_once (options : ParseOptions) (text fileName : Text) :
    let tokens := tokenize options.dialect text
    let tree := (Parse.ofText options text).tree
    let artifacts := tree.artifacts fileName
    let copied := artifacts.flatMap Artifact.copied
    copied.Pairwise Span.Apart ∧
      (Scanner.ReachesEnd options.dialect text → Scanner.ListsAll options.dialect text) ∧
      (options.dialect ≠ .template →
        Scanner.ReachesEnd options.dialect text ∧
        artifacts.map (fun a => (a.kind, a.copied)) =
          ProseArtifacts.dealtOut options.dialect
            (tokens.foldl ProseArtifacts.Deal.take {}).pieces ∧
        copied.Perm (covering (tokens.filterMap ProseArtifacts.authored?))) ∧
      (options.dialect = .template →
        let reading := TemplateArtifact.Reading.ofText text
        reading.draft.finish.tree = tree ∧
        tree.gather TemplateArtifact.pieces = reading.pieces ∧
        artifacts.map Artifact.kind = [.script] ∧
        copied.Perm ((reading.pieces.filter (TemplateArtifact.Piece.inScript tree)).map
          TemplateArtifact.Piece.source)) := by
  intro tokens tree artifacts copied
  refine ⟨?_, Scanner.ReachesEnd.listsAll, fun prose => ?_, fun template => ?_⟩
  · by_cases template : options.dialect = .template
    · have hperm := (TemplateArtifact.artifacts_perm text fileName).2
      rw [← template] at hperm
      refine (hperm.pairwise_iff Span.Apart.symm).2 ?_
      exact (TemplateArtifact.pieces_apart text).sublist (List.filter_sublist.map _)
    · have hperm := ProseArtifacts.artifacts_perm template text fileName
      exact (hperm.pairwise_iff Span.Apart.symm).2 (ProseArtifacts.authored?_apart _ text)
  · exact ⟨ProseArtifacts.reachesEnd prose text,
      ProseArtifacts.artifacts_dealtOut prose text fileName,
      ProseArtifacts.artifacts_perm prose text fileName⟩
  · obtain ⟨hkinds, hperm⟩ := TemplateArtifact.artifacts_perm text fileName
    have htree : (TemplateArtifact.Reading.ofText text).draft.finish.tree = tree := by
      unfold TemplateArtifact.Reading.ofText
      rw [TemplateArtifact.draft_of_reading, ← template]
      rfl
    obtain ⟨_, _, hstands⟩ := TemplateArtifact.pieces_of_tree text
    have hgathered := hstands.gathered
    rw [← template] at hkinds hperm hgathered
    exact ⟨htree, hgathered, hkinds, hperm⟩

end HybridMarkup
