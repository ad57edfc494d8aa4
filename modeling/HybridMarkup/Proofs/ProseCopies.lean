/-
What is copied into the artifacts of a prose document.

The emitters go through the tree and copy as they go. Next to them a list of pieces is kept, which
grows by the pieces of each node (`pieces`), and step by step the texts in the making hold just
what the list says (`Output.Holds`). The walk comes to every node once and in order, because
nothing but the root and the paragraphs has anything below it; so in the end the list is that of
the whole tree, which is known to be that of the tokens.
-/
import Mathlib.Data.List.Perm.Basic
import HybridMarkup.Proofs.FaithfulArtifacts
import HybridMarkup.Proofs.TreeWalk

set_option autoImplicit false

namespace HybridMarkup

open Text

/-- The parts of the document that are copied into an artifact, in the order of the copies. -/
def Artifact.copied (a : Artifact) : List Span := copiedSpans a.mappings

namespace ProseArtifacts

/-! ## Pieces by where they go -/

namespace Piece

/-- A piece of the script. -/
def script? : Piece → Option Span
  | script source => some source
  | _ => none

/-- A piece of the prose. -/
def prose? : Piece → Option Span
  | prose source => some source
  | _ => none

/-- A piece of the file of a block. -/
def body? : Piece → Option Span
  | body source => some source
  | _ => none

/-- The part of the document a piece stands for. -/
def source? : Piece → Option Span
  | script source | prose source | body source => some source
  | block => none

end Piece

/-- What goes to the script. -/
def scripts (ps : List Piece) : List Span := ps.filterMap Piece.script?

/-- What goes to the prose. -/
def proses (ps : List Piece) : List Span := ps.filterMap Piece.prose?

/-- Adds a piece to the blocks. -/
def addToBlocks (blocks : List (List Span)) : Piece → List (List Span)
  | .block => blocks ++ [[]]
  | .body source => blocks.dropLast ++ [blocks.getLastD [] ++ [source]]
  | _ => blocks

/-- What goes to the files of the blocks, block by block. -/
def bodies (ps : List Piece) : List (List Span) := ps.foldl addToBlocks []

theorem scripts_append (ps qs : List Piece) : scripts (ps ++ qs) = scripts ps ++ scripts qs :=
  List.filterMap_append ..

theorem proses_append (ps qs : List Piece) : proses (ps ++ qs) = proses ps ++ proses qs :=
  List.filterMap_append ..

theorem bodies_append (ps qs : List Piece) : bodies (ps ++ qs) = qs.foldl addToBlocks (bodies ps) :=
  List.foldl_append ..

/-- No piece of a block gets lost. -/
theorem flatten_bodies (ps : List Piece) : (bodies ps).flatten = ps.filterMap Piece.body? := by
  have hadd (blocks : List (List Span)) (p : Piece) :
      (addToBlocks blocks p).flatten = blocks.flatten ++ [p].filterMap Piece.body? := by
    cases p with
    | block => simp [addToBlocks, Piece.body?]
    | script _ | prose _ => simp [addToBlocks, Piece.body?]
    | body source =>
      -- a body goes to the last block, or opens one where there is none
      cases hlast : blocks.getLast? with
      | none =>
        rw [List.getLast?_eq_none_iff.1 hlast]
        rfl
      | some block =>
        obtain ⟨front, rfl⟩ := List.getLast?_eq_some_iff.1 hlast
        simp [addToBlocks, Piece.body?]
  have hfold (blocks : List (List Span)) :
      (ps.foldl addToBlocks blocks).flatten = blocks.flatten ++ ps.filterMap Piece.body? := by
    induction ps generalizing blocks with
    | nil => simp
    | cons p ps ih =>
      rw [List.foldl_cons, ih, hadd, List.append_assoc, ← List.filterMap_append]
      rfl
  exact hfold []

/-- **Every piece goes to one place.** -/
theorem sources_perm (ps : List Piece) :
    ((bodies ps).flatten ++ (scripts ps ++ proses ps)).Perm (ps.filterMap Piece.source?) := by
  rw [flatten_bodies, scripts, proses]
  induction ps with
  | nil => exact .refl _
  | cons p ps ih =>
    -- each piece moves to the place where the list of its kind ends
    cases p with
    | block => exact ih
    | body source => exact ih.cons source
    | script source =>
      refine List.Perm.trans ?_ (ih.cons source)
      exact List.perm_middle
    | prose source =>
      refine List.Perm.trans ?_ (ih.cons source)
      rw [← List.append_assoc]
      refine List.Perm.trans ?_ (List.Perm.cons source (.of_eq (List.append_assoc ..)))
      exact List.perm_middle

/-! ## Pieces of tokens -/

/-- The part of a token that is copied somewhere: all of it, or what an expression has between its
braces. -/
def authored? (t : Token) : Option Span :=
  match t.kind with
  | .text | .importStatement | .jsxExpression | .codeBlockContent => some t.span
  | .blockExpression => some t.interior
  | _ => none

theorem source?_take (deal : Deal) (t : Token) :
    (deal.take t).pieces.filterMap Piece.source?
      = deal.pieces.filterMap Piece.source? ++ [t].filterMap authored? := by
  unfold Deal.take authored?
  cases hkind : t.kind <;> simp only [List.filterMap_cons, List.filterMap_nil, hkind] <;>
    simp only [Deal.add, List.filterMap_append, List.append_nil] <;>
    try rfl
  · split
    · rfl
    · rw [List.filterMap_append]
      split <;> simp [Piece.source?]
  · split <;> rfl

/-- The pieces are the authored parts of the tokens, in the same order. -/
theorem source?_foldl_take (ts : List Token) (deal : Deal) :
    (ts.foldl Deal.take deal).pieces.filterMap Piece.source?
      = deal.pieces.filterMap Piece.source? ++ ts.filterMap authored? := by
  induction ts generalizing deal with
  | nil => simp
  | cons t ts ih =>
    rw [List.foldl_cons, ih, source?_take, List.append_assoc, ← List.filterMap_append]
    rfl

/-! ## What the emitters copy -/

/-- The texts in the making hold the given pieces, and no others. -/
structure Output.Holds (out : Output) (ps : List Piece) : Prop where
  script : out.script.copied = covering (scripts ps)
  prose : out.prose.copied = covering (proses ps)
  blocks : out.blocks.map (fun block => block.2.copied) = (bodies ps).map covering

variable {t : Tree} {text : Text} {out : Output} {ps : List Piece} {fileName : Text} {edge : Nat}

theorem statement_holds (h : out.Holds ps) (code : Text) (span : Span) :
    (statement out code span).Holds (ps ++ [.script span]) := by
  refine ⟨?_, ?_, ?_⟩
  · rw [scripts_append, covering_append, ← h.script]
    exact CodeGen.copied_addCode ..
  · rw [proses_append, covering_append, ← h.prose]
    exact (List.append_nil _).symm
  · rw [bodies_append]
    exact h.blocks

theorem expression_holds (h : out.Holds ps) (code : Text) (inner whole : Span) :
    (expression out code inner whole).Holds (ps ++ [.script inner]) := by
  refine ⟨?_, ?_, ?_⟩
  · unfold expression
    rw [scripts_append, covering_append, ← h.script, CodeGen.copied_addText,
      CodeGen.copied_addMapping _ (by simp), CodeGen.copied_addText, CodeGen.copied_addCode]
    rfl
  · rw [proses_append, covering_append, ← h.prose]
    exact (List.append_nil _).symm
  · rw [bodies_append]
    exact h.blocks

/-- A block without a text has no span that covers anything. -/
theorem covering_contentSpan {block : CodeBlock} (hcuts : block.contentSpan.Cuts text)
    (htext : block.text = slice text block.contentSpan) (hempty : block.text.isEmpty = true) :
    covering [block.contentSpan] = [] := by
  have hnot : ¬ block.contentSpan.Covers := by
    rw [hcuts.covers_iff, ← htext]
    simpa using hempty
  simp [covering, hnot]

/-- A host block is a file of its own, with the body of the block and nothing else. -/
theorem hostBlock_holds (h : out.Holds ps) {block : CodeBlock} {start : Nat}
    {language : HostLanguage} (hlanguage : isHost block.lang = true)
    (hcuts : block.contentSpan.Cuts text) (htext : block.text = slice text block.contentSpan) :
    (hostBlock fileName out block start language).Holds (ps ++ blockPieces block) := by
  have hpieces : blockPieces block
      = .block :: if block.text.isEmpty then [] else [.body block.contentSpan] := by
    simp only [blockPieces, hlanguage]
    rfl
  have hscripts : scripts (blockPieces block) = [] := by
    rw [hpieces]
    split <;> rfl
  have hproses : proses (blockPieces block) = [] := by
    rw [hpieces]
    split <;> rfl
  refine ⟨?_, ?_, ?_⟩
  · unfold hostBlock
    rw [scripts_append, hscripts, List.append_nil, CodeGen.copied_addMapping _ (by simp)]
    exact h.script
  · rw [proses_append, hproses, List.append_nil]
    exact h.prose
  · unfold hostBlock
    rw [List.map_append, h.blocks, bodies_append, hpieces]
    show _ ++ [covering [block.contentSpan]] = _
    split
    · next hempty =>
      -- without a body the file has a mapping all the same, but of nothing
      rw [covering_contentSpan hcuts htext hempty]
      simp [addToBlocks]
    · simp [addToBlocks]

/-- Any other block stays in the prose. -/
theorem foreignBlock_holds (h : out.Holds ps) {block : CodeBlock}
    (hlanguage : isHost block.lang = false) (hcuts : block.contentSpan.Cuts text)
    (htext : block.text = slice text block.contentSpan) :
    (foreignBlock out block).Holds (ps ++ blockPieces block) := by
  have hprose : (foreignBlock out block).prose.copied
      = out.prose.copied ++ covering [block.contentSpan] := by
    unfold foreignBlock
    rw [CodeGen.copied_addText, CodeGen.copied_addCode, CodeGen.copied_addText]
  cases hempty : block.text.isEmpty with
  | true =>
    have hpieces : blockPieces block = [] := by
      simp only [blockPieces, hlanguage, hempty]
      rfl
    rw [hpieces, List.append_nil]
    refine ⟨h.script, ?_, h.blocks⟩
    rw [hprose, covering_contentSpan hcuts htext hempty, List.append_nil, h.prose]
  | false =>
    have hpieces : blockPieces block = [.prose block.contentSpan] := by
      simp only [blockPieces, hlanguage, hempty]
      rfl
    rw [hpieces]
    refine ⟨?_, ?_, ?_⟩
    · rw [scripts_append]
      exact h.script.trans (congrArg covering (List.append_nil _).symm)
    · rw [hprose, proses_append, covering_append, h.prose]
      rfl
    · rw [bodies_append]
      exact h.blocks

/-- The emitters enter paragraphs only. -/
def isParagraph (t : Tree) (i : Nat) : Bool := t.kind i == .paragraph

/-- What a node adds to the pieces. -/
def addPieces (t : Tree) (ps : List Piece) (i : Nat) : List Piece := ps ++ t.gatherAt pieces i

/-- **Whatever is dealt out is copied to where its piece belongs**, and nothing else is copied. -/
theorem emit_holds (ht : t.Sound text) (fuel : Nat) :
    ∀ {out : Output} {ps : List Piece} (id : Nat), out.Holds ps →
      (emit t fileName fuel out id).Holds (t.walk (isParagraph t) (addPieces t) fuel ps id) := by
  induction fuel with
  | zero => exact fun _ h => h
  | succ fuel ih =>
    intro out ps id h
    have hnode := ht.node id
    have hwalk (hkind : t.kind id ≠ .paragraph) :
        t.walk (isParagraph t) (addPieces t) (fuel + 1) ps id = ps ++ t.gatherAt pieces id := by
      rw [Tree.walk, isParagraph, if_neg (by simpa using hkind)]
      rfl
    unfold emit
    split
    · next hdata =>
      -- a paragraph is entered, and contributes nothing itself
      have hkind : isParagraph t id = true := by simp [isParagraph, Tree.kind, hdata, NodeData.kind]
      have hnothing : addPieces t ps id = ps := by
        rw [addPieces, Tree.gatherAt, hdata]
        exact List.append_nil ps
      rw [Tree.walk, if_pos hkind, hnothing]
      have hchildren := List.foldl_rel (r := Output.Holds) (l := t.children id)
        (f := emit t fileName fuel) (g := t.walk (isParagraph t) (addPieces t) fuel) h
        fun child _ out ps h => ih child h
      exact ⟨hchildren.script, hchildren.prose, hchildren.blocks⟩
    · next hdata =>
      rw [hwalk (by simp [Tree.kind, hdata, NodeData.kind]), Tree.gatherAt, hdata]
      refine ⟨?_, ?_, ?_⟩
      · rw [scripts_append, covering_append, ← h.script]
        exact (List.append_nil _).symm
      · rw [proses_append, covering_append, ← h.prose, CodeGen.copied_addCode]
        rfl
      · rw [bodies_append]
        exact h.blocks
    · next hdata =>
      rw [hwalk (by simp [Tree.kind, hdata, NodeData.kind]), Tree.gatherAt, hdata]
      exact statement_holds h _ _
    · next hdata =>
      rw [hwalk (by simp [Tree.kind, hdata, NodeData.kind]), Tree.gatherAt, hdata]
      exact statement_holds h _ _
    · next hdata =>
      rw [hwalk (by simp [Tree.kind, hdata, NodeData.kind]), Tree.gatherAt, hdata]
      exact expression_holds h _ _ _
    · next block hdata =>
      obtain ⟨_, hsound⟩ := hnode (by rw [hdata]; simp)
      rw [hdata] at hsound
      obtain ⟨hcuts, htext, _⟩ := hsound
      rw [hwalk (by simp [Tree.kind, hdata, NodeData.kind]), Tree.gatherAt, hdata]
      split
      · next language hlanguage =>
        exact hostBlock_holds h (by rw [isHost, hlanguage]; rfl) hcuts htext
      · next hlanguage =>
        exact foreignBlock_holds h (by rw [isHost, hlanguage]; rfl) hcuts htext
    · next hparagraph htext himport hjsx hexpression hblock =>
      have hkind : t.kind id ≠ .paragraph := fun hkind => by
        rw [Tree.kind] at hkind
        cases hdata : t.data id <;> rw [hdata] at hkind <;> simp [NodeData.kind] at hkind
        exact hparagraph hdata
      have hnothing : t.gatherAt pieces id = [] := by
        rw [Tree.gatherAt]
        cases hdata : t.data id
        case text => exact absurd hdata (htext _)
        case importStatement => exact absurd hdata (himport _)
        case jsxStatement => exact absurd hdata (hjsx _)
        case expressionStatement => exact absurd hdata (hexpression _ _ _)
        case codeBlock => exact absurd hdata (hblock _)
        all_goals rfl
      rw [hwalk hkind, hnothing, List.append_nil]
      exact h

/-- In prose nothing but the root and the paragraphs has anything below it. -/
theorem seen_of_stands {dialect : Dialect} {pos : Nat} {path : List NodeKind} {d : Draft}
    (prose : dialect ≠ .template) (h : d.Stands pieces dialect text pos path ps) (i : Nat) :
    d.tree.seen (isParagraph d.tree) i = true := by
  refine Tree.seen_of_parents h.shape (fun c a hc => ?_) i
  obtain ⟨hnests, hroot⟩ := h.nests c a hc
  by_cases hkind : d.tree.kind a = .root
  · exact .inl (hroot hkind)
  · refine .inr ?_
    cases dialect with
    | template => exact absurd rfl prose
    | markdown | mdx => simpa [Dialect.nests, hkind, isParagraph] using hnests

/-- Nothing is copied from the root, so the walk below it gathers everything. -/
theorem walk_eq_gather {dialect : Dialect} {pos : Nat} {path : List NodeKind} {d : Draft}
    (prose : dialect ≠ .template) (h : d.Stands pieces dialect text pos path ps) :
    (d.tree.children Tree.root).foldl
      (d.tree.walk (isParagraph d.tree) (addPieces d.tree) d.tree.size) [] = ps := by
  have hroot : d.tree.gatherAt pieces Tree.root = [] := by
    have hkind : (d.tree.data Tree.root).kind.isSilent = true := by
      rw [show (d.tree.data Tree.root).kind = .root from h.chain.root_kind]
      rfl
    exact pieces.silent _ _ _ _ hkind
  -- the walk starts below the root, from which nothing is gathered
  have hgather : d.tree.gather pieces
      = (List.range' 1 (d.tree.size - 1)).flatMap (d.tree.gatherAt pieces) := by
    rw [Tree.gather, h.shape.range_eq, List.flatMap_cons, hroot, List.nil_append]
  rw [Tree.walk_children h.shape, List.filter_eq_self.2 fun i _ => seen_of_stands prose h i,
    ← h.gathered, hgather, List.flatMap_eq_foldl]
  rfl

theorem output_holds {dialect : Dialect} {pos : Nat} {path : List NodeKind} {d : Draft}
    (prose : dialect ≠ .template) (h : d.Stands pieces dialect text pos path ps)
    (fileName : Text) : (output d.tree fileName).Holds ps := by
  have hstart : ({ script := CodeGen.addText {} scriptOpening } : Output).Holds [] :=
    ⟨rfl, rfl, rfl⟩
  have hdealt := List.foldl_rel (r := Output.Holds) (l := d.tree.children Tree.root)
    (f := emit d.tree fileName d.tree.size)
    (g := d.tree.walk (isParagraph d.tree) (addPieces d.tree) d.tree.size) hstart
    fun child _ out ps hout => emit_holds h.tree_sound d.tree.size child hout
  rw [walk_eq_gather prose h] at hdealt
  exact ⟨hdealt.script, hdealt.prose, hdealt.blocks⟩

/-! ## The artifacts -/

theorem blockArtifacts_copied_eq (blocks : List (Text × CodeGen)) (index : Nat) :
    (blockArtifacts index blocks).map (fun a => (a.kind, a.copied))
      = (blocks.map fun block => block.2.copied).mapIdx fun i spans =>
          (ArtifactKind.block (index + i), spans) := by
  induction blocks generalizing index with
  | nil => rfl
  | cons block blocks ih =>
    rw [blockArtifacts, List.map_cons, ih, List.map_cons, List.mapIdx_cons]
    congr 2
    funext i spans
    rw [Nat.add_right_comm]
    rfl

/-- What is copied into the artifacts of a document with the given pieces. -/
def dealtOut (dialect : Dialect) (ps : List Piece) : List (ArtifactKind × List Span) :=
  ((bodies ps).map covering).mapIdx (fun i spans => (.block i, spans)) ++
    [(.script, covering (scripts ps)), (.prose, covering (proses ps))] ++
    if dialect = .mdx then [(.index, [])] else []

theorem ofTree_dealtOut (h : (output t fileName).Holds ps) :
    (ofTree t fileName).map (fun a => (a.kind, a.copied)) = dealtOut t.dialect ps := by
  have hblocks : (blockArtifacts 0 (output t fileName).blocks).map (fun a => (a.kind, a.copied))
      = ((bodies ps).map covering).mapIdx fun i spans => (.block i, spans) := by
    rw [blockArtifacts_copied_eq, h.blocks]
    simp only [Nat.zero_add]
  unfold ofTree dealtOut
  rw [List.map_append, List.map_append, hblocks]
  congr 1
  · congr 1
    rw [← h.script, ← h.prose]
    rfl
  · split <;> rfl

/-- Everything that is dealt out is a piece, and the other way round. -/
theorem dealtOut_perm (dialect : Dialect) (ps : List Piece) :
    ((dealtOut dialect ps).flatMap Prod.snd).Perm (covering (ps.filterMap Piece.source?)) := by
  refine List.Perm.trans (.of_eq ?_) ((sources_perm ps).filter _)
  have hblocks : (((bodies ps).map covering).mapIdx
        fun i spans => ((.block i, spans) : ArtifactKind × List Span)).map Prod.snd
      = (bodies ps).map covering := by
    rw [List.mapIdx_eq_zipIdx_map, List.map_map]
    exact List.zipIdx_map_fst ..
  have hindex : (if dialect = .mdx then [((.index, []) : ArtifactKind × List Span)] else []).flatMap
      Prod.snd = [] := by
    split <;> rfl
  unfold dealtOut
  rw [List.flatMap_append, List.flatMap_append, hindex, List.append_nil, List.flatMap_def, hblocks,
    List.filter_append, List.filter_append, List.filter_flatten, List.flatMap_cons,
    List.flatMap_cons, List.flatMap_nil, List.append_nil]
  rfl

end ProseArtifacts

end HybridMarkup
