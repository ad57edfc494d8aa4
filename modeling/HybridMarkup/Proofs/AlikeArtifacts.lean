/-
What is generated from documents that are alike.

The texts that are generated from a document are made of its words; its places only enter the
mappings. So documents that are the same up to places have artifacts with the same names and texts:
the script imports a block by a name that does not depend on what the block contains, and nothing of
a block of the host language is prose.

If such a block has been edited, its own file is another. It is one file: the files of blocks are
those of the nodes that become one, in their order (`output_files`), and a node is come to once. So
the artifacts differ in the text of that one file at most (`ofTree_editedAt`).
-/
import HybridMarkup.Proofs.AlikeDrafts
import HybridMarkup.Proofs.ArtifactNames
import HybridMarkup.Proofs.ProseCopies

set_option autoImplicit false

namespace HybridMarkup

open Text

/-- Data with the same words are the same, or of a kind that mentions places. -/
theorem NodeData.eq_of_words {data data' : NodeData} (h : data'.words = data.words) :
    data' = data ∨
      (∃ block contentSpan openerEnd, data = .codeBlock block ∧
        data' = .codeBlock { block with contentSpan, openerEnd }) ∨
      (∃ s inner inner' isInline, data = .expressionStatement s inner isInline ∧
        data' = .expressionStatement s inner' isInline) ∨
      (data.kind = .element ∨ data.kind = .attr ∨ data.kind = .directive ∨
        data.kind = .mustache) := by
  cases data with
  | codeBlock block =>
    obtain ⟨contentSpan, openerEnd, hdata'⟩ := codeBlock_of_words h
    exact .inr (.inl ⟨block, contentSpan, openerEnd, rfl, hdata'⟩)
  | expressionStatement s inner isInline =>
    cases data' with
    | expressionStatement s' inner' isInline' =>
      simp only [words, expressionStatement.injEq] at h
      obtain ⟨rfl, _, rfl⟩ := h
      exact .inr (.inr (.inl ⟨s', inner, inner', isInline', rfl, rfl⟩))
    | _ => simp [words] at h
  | element e => exact .inr (.inr (.inr (.inl rfl)))
  | attr a => exact .inr (.inr (.inr (.inr (.inl rfl))))
  | directive a => exact .inr (.inr (.inr (.inr (.inr (.inl rfl)))))
  | mustache s inner => exact .inr (.inr (.inr (.inr (.inr (.inr rfl)))))
  | root | text s | comment s | paragraph | importStatement s | jsxStatement s | rawText s =>
    cases data' <;> first | exact .inl h | simp [words] at h

namespace ProseArtifacts

/-! ## Dealing out nodes that are alike -/

/-- The file that a block of the host language becomes. -/
def blockCode (block : CodeBlock) : CodeGen :=
  (CodeGen.addCode {} block.text .offset block.contentSpan).addText ("\n\n;".toList ++ emptyExport)

/-- Outputs with the same script, the same prose, and files of blocks with the same names. -/
structure OutputsAlike (out out' : Output) : Prop where
  script_eq : out'.script.text = out.script.text
  prose_eq : out'.prose.text = out.prose.text
  names_eq : out'.blocks.map Prod.fst = out.blocks.map Prod.fst

variable {out out' : Output}

theorem OutputsAlike.length_eq (h : OutputsAlike out out') :
    out'.blocks.length = out.blocks.length := by
  simpa using congrArg List.length h.names_eq

theorem OutputsAlike.statement (h : OutputsAlike out out') (text : Text) (span span' : Span) :
    OutputsAlike (statement out text span) (statement out' text span') := by
  refine ⟨?_, h.prose_eq, h.names_eq⟩
  simp only [ProseArtifacts.statement, CodeGen.addCode, CodeGen.addText, CodeGen.addMapping,
    h.script_eq]

theorem OutputsAlike.expression (h : OutputsAlike out out') (text : Text)
    (inner inner' span span' : Span) :
    OutputsAlike (expression out text inner span) (expression out' text inner' span') := by
  refine ⟨?_, h.prose_eq, h.names_eq⟩
  simp only [ProseArtifacts.expression, CodeGen.addCode, CodeGen.addText, CodeGen.addMapping,
    h.script_eq]

theorem OutputsAlike.text (h : OutputsAlike out out') (text : Text) (span span' : Span) :
    OutputsAlike { out with prose := out.prose.addCode text .offset span }
      { out' with prose := out'.prose.addCode text .offset span' } := by
  refine ⟨h.script_eq, ?_, h.names_eq⟩
  simp only [CodeGen.addCode, CodeGen.addText, CodeGen.addMapping, h.prose_eq]

/-- A block of the host language is imported by a name that its number makes. What is in it goes to
its file only. -/
theorem OutputsAlike.hostBlock (h : OutputsAlike out out') (fileName : Text)
    (block block' : CodeBlock) (start start' : Nat) (language : HostLanguage) :
    OutputsAlike (hostBlock fileName out block start language)
      (hostBlock fileName out' block' start' language) := by
  refine ⟨?_, h.prose_eq, ?_⟩
  · simp only [ProseArtifacts.hostBlock, CodeGen.addText, CodeGen.addMapping, h.script_eq,
      h.length_eq]
  · simp only [ProseArtifacts.hostBlock, List.map_append, h.names_eq, h.length_eq, List.map_cons,
      List.map_nil]

theorem OutputsAlike.foreignBlock (h : OutputsAlike out out') (block : CodeBlock)
    (contentSpan : Span) (openerEnd : Nat) :
    OutputsAlike (foreignBlock out block)
      (foreignBlock out' { block with contentSpan, openerEnd }) := by
  refine ⟨h.script_eq, ?_, h.names_eq⟩
  simp only [ProseArtifacts.foreignBlock, CodeGen.addCode, CodeGen.addText, CodeGen.addMapping,
    h.prose_eq]

section Trees

variable {edit : Option Draft.Edit} {d d' : Draft} (h : Draft.Alike edit d d') {fileName : Text}
  {fuel : Nat} {id : NodeId}

include h

/-- A node with the same data, if what is below it is dealt out alike. -/
theorem emit_same (hout : OutputsAlike out out') (hsame : d'.tree.data id = d.tree.data id)
    (hbelow : OutputsAlike ((d.tree.children id).foldl (emit d.tree fileName fuel) out)
      ((d.tree.children id).foldl (emit d'.tree fileName fuel) out')) :
    OutputsAlike (emit d.tree fileName (fuel + 1) out id)
      (emit d'.tree fileName (fuel + 1) out' id) := by
  have hcovers (hleaf : (d.tree.data id).kind.isLeaf = true) := h.covers_eq id hleaf
  have hchildren := h.children_eq id
  rw [emit, emit, hsame, hchildren]
  cases hdata : d.tree.data id with
  | paragraph =>
    refine ⟨hbelow.script_eq, ?_, hbelow.names_eq⟩
    show CodeGen.text _ ++ _ = CodeGen.text _ ++ _
    rw [hbelow.prose_eq]
  | text s =>
    dsimp only
    rw [hcovers (by rw [hdata]; rfl)]
    exact hout.text _ _ _
  | importStatement s | jsxStatement s =>
    dsimp only
    rw [hcovers (by rw [hdata]; rfl)]
    exact hout.statement _ _ _
  | expressionStatement s inner isInline => exact hout.expression s inner inner _ _
  | codeBlock block =>
    dsimp only
    split
    · exact hout.hostBlock fileName block block _ _ _
    · exact hout.foreignBlock block block.contentSpan block.openerEnd
  | root | comment s | element e | attr a | directive a | mustache s inner | rawText s => exact hout

variable (hhost : ∀ e ∈ edit, ∃ language, e.old.lang.bind HostLanguage.ofName? = some language ∧
  e.new.lang.bind HostLanguage.ofName? = some language)

include hhost

/-- **Nodes that are alike are dealt out alike.** -/
theorem emit_alike (fileName : Text) (fuel : Nat) (hout : OutputsAlike out out') (id : NodeId) :
    OutputsAlike (emit d.tree fileName fuel out id) (emit d'.tree fileName fuel out' id) := by
  induction fuel generalizing out out' id with
  | zero => exact hout
  | succ fuel ih =>
    by_cases hedited : ∃ e ∈ edit, id = e.node
    · obtain ⟨e, he, rfl⟩ := hedited
      obtain ⟨language, hold, hnew⟩ := hhost e he
      rw [emit, emit, (h.done e he).old_eq, (h.done e he).new_eq]
      dsimp only
      rw [hold, hnew]
      exact hout.hostBlock fileName e.old e.new _ _ language
    · have hwords := h.words_eq id fun e he heq => hedited ⟨e, he, heq⟩
      rcases NodeData.eq_of_words hwords with hsame |
        ⟨block, contentSpan, openerEnd, hdata, hdata'⟩ |
        ⟨s, inner, inner', isInline, hdata, hdata'⟩ | hkind
      · exact emit_same h hout hsame (List.foldl_rel hout fun child _ _ _ hout => ih hout child)
      · rw [emit, emit, hdata, hdata']
        dsimp only
        split
        · exact hout.hostBlock fileName block _ _ _ _
        · exact hout.foreignBlock block contentSpan openerEnd
      · rw [emit, emit, hdata, hdata']
        exact hout.expression s inner inner' _ _
      -- nothing is made of what templates consist of
      · have hsilent {t : Tree} {out : Output} (hkind : (t.data id).kind = .element ∨
            (t.data id).kind = .attr ∨ (t.data id).kind = .directive ∨
            (t.data id).kind = .mustache) : emit t fileName (fuel + 1) out id = out := by
          rw [emit]
          cases hdata : t.data id <;> simp [hdata, NodeData.kind] at hkind ⊢
        rw [hsilent hkind, hsilent (NodeData.kind_eq_of_words hwords ▸ hkind)]
        exact hout

theorem output_alike (fileName : Text) :
    OutputsAlike (output d.tree fileName) (output d'.tree fileName) := by
  have hstart : OutputsAlike { script := CodeGen.addText {} scriptOpening }
      { script := CodeGen.addText {} scriptOpening } := ⟨rfl, rfl, rfl⟩
  have hchildren := List.foldl_rel (l := d.tree.children Tree.root) hstart
    fun child _ _ _ hout => emit_alike h hhost fileName d.tree.size hout child
  unfold output
  rw [h.children_eq, h.size_eq]
  refine ⟨?_, hchildren.prose_eq, hchildren.names_eq⟩
  show CodeGen.text _ ++ _ = CodeGen.text _ ++ _
  rw [hchildren.script_eq]

end Trees

/-! ## The files of blocks -/

/-- The file that a node becomes, if it becomes one. -/
def code? (data : NodeData) : Option CodeGen :=
  match data with
  | .codeBlock block => (block.lang.bind HostLanguage.ofName?).map fun _ => blockCode block
  | _ => none

theorem code?_text {data data' : NodeData} (h : data'.words = data.words) :
    (code? data').map CodeGen.text = (code? data).map CodeGen.text := by
  rcases NodeData.eq_of_words h with rfl | ⟨block, contentSpan, openerEnd, rfl, rfl⟩ |
    ⟨s, inner, inner', isInline, rfl, rfl⟩ | hkind
  · rfl
  · rw [code?, code?, Option.map_map, Option.map_map]
    rfl
  · rfl
  · have hnone {data : NodeData} (hkind : data.kind = .element ∨ data.kind = .attr ∨
        data.kind = .directive ∨ data.kind = .mustache) : code? data = none := by
      cases data <;> simp [NodeData.kind] at hkind <;> rfl
    rw [hnone hkind, hnone (NodeData.kind_eq_of_words h ▸ hkind)]

/-- The files so far are those of the given nodes. -/
def FilesOf (t : Tree) (out : Output) (ids : List Nat) : Prop :=
  out.blocks.map Prod.snd = ids.filterMap fun id => code? (t.data id)

theorem FilesOf.snoc {t : Tree} {ids : List Nat} {id : Nat} (h : FilesOf t out ids)
    (hblocks : out'.blocks.map Prod.snd = out.blocks.map Prod.snd ++ (code? (t.data id)).toList) :
    FilesOf t out' (ids ++ [id]) := by
  rw [FilesOf, hblocks, h, List.filterMap_append, List.filterMap_cons]
  cases code? (t.data id) <;> rfl

theorem code?_codeBlock {block : CodeBlock} {language : HostLanguage}
    (h : block.lang.bind HostLanguage.ofName? = some language) :
    code? (.codeBlock block) = some (blockCode block) := by
  rw [code?, h]
  rfl

/-- The files in front of that of a node, its own, and those behind it. -/
theorem FilesOf.split {t : Tree} {front behind : List Nat} {id : Nat} {file : CodeGen}
    (h : FilesOf t out (front ++ id :: behind)) (hfile : code? (t.data id) = some file) :
    out.blocks.map Prod.snd = (front.filterMap fun id => code? (t.data id)) ++
      file :: behind.filterMap fun id => code? (t.data id) := by
  rw [FilesOf, List.filterMap_append, List.filterMap_cons_some (by exact hfile)] at h
  exact h

/-- **The nodes that a walk comes to are those whose files there are.** -/
theorem emit_files (t : Tree) (fileName : Text) (fuel : Nat) :
    ∀ {out : Output} {ids : List Nat} (id : Nat), FilesOf t out ids →
      FilesOf t (emit t fileName fuel out id)
        (t.walk (isParagraph t) (fun ids id => ids ++ [id]) fuel ids id) := by
  induction fuel with
  | zero => exact fun _ h => h
  | succ fuel ih =>
    intro out ids id h
    have hleaf (hkind : t.kind id ≠ .paragraph) :
        t.walk (isParagraph t) (fun ids id => ids ++ [id]) (fuel + 1) ids id = ids ++ [id] := by
      rw [Tree.walk, isParagraph, if_neg (by simpa using hkind)]
      rfl
    rw [emit]
    cases hdata : t.data id with
    | paragraph =>
      have hkind : isParagraph t id = true := by simp [isParagraph, Tree.kind, hdata, NodeData.kind]
      have hvisited : FilesOf t out (ids ++ [id]) := by
        refine h.snoc ?_
        rw [hdata]
        exact (List.append_nil _).symm
      rw [Tree.walk, if_pos hkind]
      exact List.foldl_rel (r := FilesOf t) hvisited fun child _ _ _ hout => ih child hout
    | codeBlock block =>
      rw [hleaf (by simp [Tree.kind, hdata, NodeData.kind])]
      refine h.snoc ?_
      rw [hdata, code?]
      dsimp only
      split
      · next hlanguage =>
        rw [hlanguage, hostBlock, List.map_append]
        rfl
      · next hlanguage =>
        rw [hlanguage]
        exact (List.append_nil _).symm
    | _ =>
      rw [hleaf (by simp [Tree.kind, hdata, NodeData.kind])]
      refine h.snoc ?_
      rw [hdata]
      exact (List.append_nil _).symm

/-- **Every node but the root is come to once**, so the files are those of all nodes. -/
theorem output_files {dialect : Dialect} {text : Text} {pos : Nat} {path : List NodeKind}
    {ps : List Piece} {d : Draft} (prose : dialect ≠ .template)
    (h : d.Stands pieces dialect text pos path ps) (fileName : Text) :
    FilesOf d.tree (output d.tree fileName) (List.range' 1 (d.tree.size - 1)) := by
  have hstart : FilesOf d.tree { script := CodeGen.addText {} scriptOpening } [] := rfl
  have hfiles := List.foldl_rel (r := FilesOf d.tree) (l := d.tree.children Tree.root) hstart
    fun child _ _ _ hout => emit_files d.tree fileName d.tree.size child hout
  rw [Tree.walk_children h.shape, List.filter_eq_self.2 fun i _ => seen_of_stands prose h i,
    ← List.flatMap_eq_foldl, List.flatMap_singleton'] at hfiles
  exact hfiles

/-! ## The artifacts -/

theorem getElem?_blockArtifacts (blocks : List (Text × CodeGen)) (index i : Nat) :
    (blockArtifacts index blocks)[i]?
      = blocks[i]?.map fun block => block.2.artifact (.block (index + i)) block.1 := by
  induction blocks generalizing index i with
  | nil => rfl
  | cons block blocks ih =>
    cases i with
    | zero => rfl
    | succ i =>
      rw [blockArtifacts, List.getElem?_cons_succ, List.getElem?_cons_succ, ih, Nat.add_right_comm]
      rfl

theorem blockArtifacts_kinds {blocks blocks' : List (Text × CodeGen)}
    (h : blocks'.length = blocks.length) (index : Nat) :
    (blockArtifacts index blocks').map Artifact.kind
      = (blockArtifacts index blocks).map Artifact.kind := by
  induction blocks generalizing blocks' index with
  | nil => rw [List.eq_nil_of_length_eq_zero h]
  | cons block blocks ih =>
    obtain ⟨block', blocks', rfl⟩ := List.exists_cons_of_length_eq_add_one h
    exact congrArg (_ :: ·) (ih (Nat.succ.inj h) (index + 1))

theorem blockArtifacts_texts (blocks : List (Text × CodeGen)) (index : Nat) :
    (blockArtifacts index blocks).map Artifact.text
      = (blocks.map Prod.snd).map CodeGen.text := by
  induction blocks generalizing index with
  | nil => rfl
  | cons block blocks ih => exact congrArg (_ :: ·) (ih (index + 1))

/-- What there is behind the artifacts of the blocks. -/
def closingArtifacts (dialect : Dialect) (out : Output) (fileName : Text) : List Artifact :=
  [out.script.artifact .script (fileName ++ proseScriptSuffix),
    out.prose.artifact .prose (fileName ++ proseSuffix)] ++
    if dialect = .mdx then
      [{ kind := .index
         fileName := fileName ++ indexSuffix
         text := indexText (fileName ++ proseScriptSuffix)
         mappings := [] }]
    else []

theorem ofTree_eq (t : Tree) (fileName : Text) :
    ofTree t fileName = blockArtifacts 0 (output t fileName).blocks ++
      closingArtifacts t.dialect (output t fileName) fileName :=
  List.append_assoc ..

theorem OutputsAlike.closing (h : OutputsAlike out out') (dialect : Dialect) (fileName : Text) :
    (closingArtifacts dialect out' fileName).map Artifact.kind
        = (closingArtifacts dialect out fileName).map Artifact.kind ∧
      (closingArtifacts dialect out' fileName).map Artifact.fileName
        = (closingArtifacts dialect out fileName).map Artifact.fileName ∧
      (closingArtifacts dialect out' fileName).map Artifact.text
        = (closingArtifacts dialect out fileName).map Artifact.text := by
  simp only [closingArtifacts, List.map_append, List.map_cons, List.map_nil, CodeGen.artifact,
    h.script_eq, h.prose_eq, and_self]

end ProseArtifacts

/-- Artifacts with the same kinds and names in the same order, and with the same texts, except that
the block with a number is one file in the first list and another in the second. -/
structure EditedAt (number : Nat) (file file' : CodeGen) (as as' : List Artifact) : Prop where
  kinds_eq : as'.map Artifact.kind = as.map Artifact.kind
  names_eq : as'.map Artifact.fileName = as.map Artifact.fileName
  texts_eq : ∀ i, i ≠ number → as'[i]?.map Artifact.text = as[i]?.map Artifact.text
  old : ∃ name, as[number]? = some (file.artifact (.block number) name)
  new : ∃ name, as'[number]? = some (file'.artifact (.block number) name)

namespace ProseArtifacts

/-- Lists that are the same but for what is at one place. -/
theorem getElem?_append_cons {α : Type} (front behind : List α) (a a' : α) {i : Nat}
    (hi : i ≠ front.length) : (front ++ a' :: behind)[i]? = (front ++ a :: behind)[i]? := by
  rcases Nat.lt_or_gt_of_ne hi with hlt | hgt
  · rw [List.getElem?_append_left hlt, List.getElem?_append_left hlt]
  · obtain ⟨j, rfl⟩ := Nat.exists_eq_add_of_lt hgt
    rw [List.getElem?_append_right (by omega), List.getElem?_append_right (by omega),
      show front.length + j + 1 - front.length = j + 1 by omega]
    rfl

/-- The artifact of a file among the files of the blocks. -/
theorem ofTree_getElem? {t : Tree} {fileName : Text} {front behind : List CodeGen} {file : CodeGen}
    (h : (output t fileName).blocks.map Prod.snd = front ++ file :: behind) :
    ∃ name, (ofTree t fileName)[front.length]?
      = some (file.artifact (.block front.length) name) := by
  have hfile : ((output t fileName).blocks.map Prod.snd)[front.length]? = some file := by
    rw [h, List.getElem?_append_right (Nat.le_refl _), Nat.sub_self]
    rfl
  rw [List.getElem?_map] at hfile
  obtain ⟨⟨name, _⟩, hblock, rfl⟩ := Option.map_eq_some_iff.1 hfile
  have hartifact := getElem?_blockArtifacts (output t fileName).blocks 0 front.length
  rw [hblock, Nat.zero_add] at hartifact
  refine ⟨name, ?_⟩
  rw [ofTree_eq, List.getElem?_append_left (List.getElem?_eq_some_iff.1 hartifact).1, hartifact]
  rfl

/-- The other nodes become files with the same texts. -/
theorem texts_of_alike {e : Draft.Edit} {d d' : Draft} (h : Draft.Alike (some e) d d')
    {ids : List Nat} (hids : e.node ∉ ids) :
    (ids.filterMap fun id => code? (d'.tree.data id)).map CodeGen.text
      = (ids.filterMap fun id => code? (d.tree.data id)).map CodeGen.text := by
  rw [List.map_filterMap, List.map_filterMap]
  refine List.filterMap_congr fun id hid => code?_text (h.words_eq id fun e' he heq => hids ?_)
  rw [Option.mem_some_iff.1 he, ← heq]
  exact hid

/-- The root is no block, so an edited block is one of the other nodes, and it is so once. -/
theorem exists_split {dialect : Dialect} {e : Draft.Edit} {d d' : Draft} {text : Text}
    {pos : Nat} {path : List NodeKind} {ps : List Piece} (h : e.Done d d')
    (hstands : d.Stands pieces dialect text pos path ps) :
    ∃ front behind, List.range' 1 (d.tree.size - 1) = front ++ e.node :: behind ∧
      e.node ∉ front ∧ e.node ∉ behind := by
  have hroot : e.node ≠ Tree.root := fun heq => by
    have hkind := hstands.chain.root_kind
    rw [← heq, Tree.kind, h.old_eq] at hkind
    simp [NodeData.kind] at hkind
  have hsize : d.tree.size = 1 + (d.tree.size - 1) :=
    (Nat.add_sub_cancel' (Nat.lt_of_le_of_lt (Nat.zero_le _) h.lt_size)).symm
  have hmem : e.node ∈ List.range' 1 (d.tree.size - 1) :=
    List.mem_range'_1.2 ⟨Nat.pos_of_ne_zero hroot, Nat.lt_of_lt_of_eq h.lt_size hsize⟩
  obtain ⟨front, behind, hsplit⟩ := List.append_of_mem hmem
  obtain ⟨-, hrest, hapart⟩ :=
    List.nodup_append.1 (show (front ++ e.node :: behind).Nodup from hsplit ▸ List.nodup_range')
  exact ⟨front, behind, hsplit, fun hin => hapart _ hin _ List.mem_cons_self rfl,
    (List.nodup_cons.1 hrest).1⟩

/-- **An edited block is the one artifact that has another text.** -/
theorem ofTree_editedAt {dialect : Dialect} {e : Draft.Edit} {d d' : Draft} {text text' : Text}
    {pos pos' : Nat} {path path' : List NodeKind} {ps ps' : List Piece}
    (prose : dialect ≠ .template) (h : Draft.Alike (some e) d d')
    (hstands : d.Stands pieces dialect text pos path ps)
    (hstands' : d'.Stands pieces dialect text' pos' path' ps') {language : HostLanguage}
    (hold : e.old.lang.bind HostLanguage.ofName? = some language)
    (hnew : e.new.lang.bind HostLanguage.ofName? = some language) :
    ∃ number, ∀ fileName, EditedAt number (blockCode e.old) (blockCode e.new)
      (ofTree d.tree fileName) (ofTree d'.tree fileName) := by
  have hdone := h.done e rfl
  obtain ⟨front, behind, hsplit, hnotFront, hnotBehind⟩ := exists_split hdone hstands
  have hfront := texts_of_alike h hnotFront
  have hbehind := texts_of_alike h hnotBehind
  have hnumber : (front.filterMap fun id => code? (d'.tree.data id)).length
      = (front.filterMap fun id => code? (d.tree.data id)).length := by
    simpa only [List.length_map] using congrArg List.length hfront
  refine ⟨(front.filterMap fun id => code? (d.tree.data id)).length, fun fileName => ?_⟩
  have hfiles := output_files prose hstands fileName
  have hfiles' := output_files prose hstands' fileName
  rw [hsplit] at hfiles
  rw [h.size_eq, hsplit] at hfiles'
  replace hfiles := hfiles.split (hdone.old_eq ▸ code?_codeBlock hold)
  replace hfiles' := hfiles'.split (hdone.new_eq ▸ code?_codeBlock hnew)
  have hout := output_alike h (fun e' he => ⟨language, by
    rw [← Option.mem_some_iff.1 he]
    exact ⟨hold, hnew⟩⟩) fileName
  obtain ⟨hkinds, hnames, htexts⟩ := hout.closing d.tree.dialect fileName
  constructor
  · rw [ofTree_eq, ofTree_eq, h.dialect_eq, List.map_append, List.map_append, hkinds,
      blockArtifacts_kinds hout.length_eq]
  · rw [ofTree_eq, ofTree_eq, h.dialect_eq, List.map_append, List.map_append, hnames,
      blockArtifacts_names, blockArtifacts_names, hout.names_eq]
  · intro i hi
    rw [← List.getElem?_map, ← List.getElem?_map, ofTree_eq, ofTree_eq, h.dialect_eq,
      List.map_append, List.map_append, htexts, blockArtifacts_texts, blockArtifacts_texts, hfiles,
      hfiles', List.map_append, List.map_append, List.map_cons, List.map_cons, hfront, hbehind,
      List.append_assoc, List.append_assoc, List.cons_append, List.cons_append]
    refine getElem?_append_cons _ _ _ _ ?_
    rwa [List.length_map]
  · exact ofTree_getElem? hfiles
  · exact hnumber ▸ ofTree_getElem? hfiles'

end ProseArtifacts

end HybridMarkup
