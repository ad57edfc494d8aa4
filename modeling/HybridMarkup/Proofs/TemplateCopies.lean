/-
What is copied into the script of a template.

The script is made in two rounds. The first goes to all nodes and copies the bodies of the script
elements it finds; the second walks down from the root and copies the code on its way, but does not
enter an element whose body is opaque. Which of the pieces of a template are copied can be said of
each piece alone (`Piece.inScript`): a body if its element is a script, and any other code if no
element above it is opaque. The two rounds copy just these, and each of them once.
-/
import HybridMarkup.Proofs.ProseCopies

set_option autoImplicit false

namespace HybridMarkup

open Text

namespace Tree

variable {t : Tree} {edge : Nat} {α : Type}

/-- The opaque element that a node is, if it is one. -/
def rawElement? (t : Tree) (i : Nat) : Option RawElement :=
  match t.data i with
  | .element e => RawElement.ofName? e.tag
  | _ => none

theorem rawElement?_of_kind {i : Nat} (h : t.kind i ≠ .element) : t.rawElement? i = none := by
  unfold rawElement?
  split
  · next hdata => exact absurd (kind_of_data hdata) h
  · rfl

/-- Where one node of many contributes anything, that is all there is. -/
theorem flatMap_range_single {n q : Nat} (hq : q < n) {g : Nat → List α}
    (hne : ∀ p, p ≠ q → g p = []) : (List.range n).flatMap g = g q := by
  induction n with
  | zero => exact absurd hq (Nat.not_lt_zero q)
  | succ n ih =>
    rw [List.range_succ, List.flatMap_append, List.flatMap_singleton]
    by_cases hqn : q = n
    · have hfront : (List.range n).flatMap g = [] := by
        refine List.flatMap_eq_nil_iff.2 fun p hp => hne p ?_
        have := List.mem_range.1 hp
        omega
      rw [hfront, hqn, List.nil_append]
    · rw [ih (by omega), hne n (Ne.symm hqn), List.append_nil]

/-- Sorting nodes by their parents keeps each of them once. -/
theorem filter_parent_perm (t : Tree) (n : Nat) (f : Nat → Nat → List α) (l : List Nat)
    (hparent : ∀ i ∈ l, ∀ p : Nat, t.parent i = some p → p < n) :
    ((List.range n).flatMap fun p => (l.filter fun i => t.parent i = some p).flatMap (f p)).Perm
      (l.flatMap fun i => match t.parent i with | some p => f p i | none => []) := by
  induction l with
  | nil => simp
  | cons i l ih =>
    -- the first node goes to one parent, and the others are where they were
    have hsplit (p : Nat) : ((i :: l).filter fun i => t.parent i = some p).flatMap (f p)
        = (if t.parent i = some p then f p i else []) ++
          (l.filter fun i => t.parent i = some p).flatMap (f p) := by
      by_cases hp : t.parent i = some p <;> simp [hp]
    have hfirst : ((List.range n).flatMap fun p => if t.parent i = some p then f p i else [])
        = match t.parent i with | some p => f p i | none => [] := by
      rcases t.parent_cases i with hp | ⟨q, hq⟩
      · simp [hp]
      · have hlt := hparent i List.mem_cons_self q hq
        rw [flatMap_range_single hlt fun p hne => if_neg fun hp => hne ?_, if_pos hq, hq]
        rw [hq, Option.some.injEq] at hp
        exact hp.symm
    simp only [hsplit]
    refine (List.flatMap_append_perm _ _ _).symm.trans ?_
    rw [hfirst, List.flatMap_cons]
    exact (ih fun j hj => hparent j (List.mem_cons_of_mem i hj)).append_left _

/-- **Going to the children of every node** comes once to every node that has a parent. -/
theorem children_perm (h : t.Shape edge) (f : Nat → Nat → List α) :
    ((List.range t.size).flatMap fun p => (t.children p).flatMap (f p)).Perm
      ((List.range t.size).flatMap fun i =>
        match t.parent i with | some p => f p i | none => []) := by
  refine List.Perm.trans (.of_eq ?_) (filter_parent_perm t t.size f (List.range t.size) ?_)
  · refine List.flatMap_congr fun p hp => ?_
    rw [h.listed p (List.mem_range.1 hp)]
  · intro i hi p hp
    exact Nat.lt_trans (h.parent_lt hp) (List.mem_range.1 hi)

end Tree

namespace TemplateArtifact

variable {t : Tree} {text : Text} {edge : Nat}

/-! ## Which code is copied -/

/-- Whether a piece of code is copied into the script. -/
def Piece.inScript (t : Tree) : Piece → Bool
  | body element _ => t.rawElement? element = some .script
  | code node _ => (t.ancestors node).all fun a => (t.rawElement? a).isNone

/-- The opaque body a node is. -/
def bodyAt (t : Tree) (i : Nat) : List Span :=
  match t.data i with
  | .rawText _ => covering [t.span i]
  | _ => []

/-- The code in a node. -/
def codeAt (t : Tree) (i : Nat) : List Span :=
  match t.data i with
  | .mustache _ inner => covering [inner]
  | .directive d =>
    match d.valueSpan with
    | some valueSpan => covering [valueSpan]
    | none => []
  | _ => []

/-- The bodies of a node, if it is a script element. -/
def bodyBelow (t : Tree) (p i : Nat) : List Span :=
  if t.rawElement? p = some .script then bodyAt t i else []

/-- The code of a node that has no opaque element above it. -/
def codeOutside (t : Tree) (i : Nat) : List Span :=
  if (t.ancestors i).all fun a => (t.rawElement? a).isNone then codeAt t i else []

theorem source_list (p : Piece) : p.list.map Piece.source = covering [p.source] := by
  unfold Piece.list covering
  split <;> simp_all

/-- What is copied of a single node. -/
theorem inScript_gatherAt (t : Tree) (i : Nat) :
    ((t.gatherAt pieces i).filter (Piece.inScript t)).map Piece.source
      = bodyBelow t ((t.parent i).getD Tree.root) i ++ codeOutside t i := by
  have hlist (p : Piece) : (p.list.filter (Piece.inScript t)).map Piece.source
      = if p.inScript t then covering [p.source] else [] := by
    rw [← source_list]
    unfold Piece.list
    split
    · cases hin : p.inScript t <;> simp [hin]
    · simp
  unfold bodyBelow codeOutside bodyAt codeAt Tree.gatherAt pieces
  dsimp only
  cases hdata : t.data i with
  | rawText code => simp [hlist, Piece.inScript, Piece.source]
  | mustache code inner => simp [hlist, Piece.inScript, Piece.source]
  | directive d =>
    dsimp only
    cases d.valueSpan with
    | none => simp
    | some valueSpan => simp [hlist, Piece.inScript, Piece.source]
  | _ => simp

/-! ## What the two rounds copy -/

/-- What grows by the same amounts as a list has grown by all of them in the end. -/
theorem foldl_copied {α β : Type} (copied : α → List Span) {f : α → β → α} {g : β → List Span}
    (h : ∀ a b, copied (f a b) = copied a ++ g b) (l : List β) (a : α) :
    copied (l.foldl f a) = copied a ++ l.flatMap g := by
  induction l generalizing a with
  | nil => simp
  | cons b l ih => rw [List.foldl_cons, ih, h, List.flatMap_cons, List.append_assoc]

theorem scriptChild_copied (t : Tree) (out : Output) (child : Nat) :
    (scriptChild t out child).script.copied = out.script.copied ++ bodyAt t child := by
  unfold scriptChild bodyAt
  cases hdata : t.data child with
  | rawText code => simp
  | attr a =>
    dsimp only
    split <;> simp
  | _ => simp

/-- A script element gives its bodies to the script, and any other node nothing. -/
theorem scriptElement_copied (t : Tree) (out : Output) (p : Nat) :
    (scriptElement t out p).script.copied
      = out.script.copied ++ (t.children p).flatMap (bodyBelow t p) := by
  have hchildren := foldl_copied (fun out : Output => out.script.copied)
    (scriptChild_copied t) (t.children p) out
  unfold scriptElement bodyBelow Tree.rawElement?
  cases hdata : t.data p with
  | element e =>
    dsimp only
    split
    · exact hchildren
    · simp
  | _ => simp

/-- The walk enters attributes and the elements whose body is markup. -/
def isEntered (t : Tree) (i : Nat) : Bool :=
  match t.kind i with
  | .element => (t.rawElement? i).isNone
  | .attr => true
  | _ => false

/-- What a node adds to what is copied. -/
def addCodeAt (t : Tree) (spans : List Span) (i : Nat) : List Span := spans ++ codeAt t i

theorem embed_copied (script : CodeGen) (code : Text) (source : Span) :
    (embed script code source).copied = script.copied ++ covering [source] := by
  rw [embed, CodeGen.copied_addText, CodeGen.copied_addCode, CodeGen.copied_addText]

theorem embedDirective_copied {script : CodeGen} {id : Nat} {d : Directive}
    (hdata : t.data id = .directive d) (hsound : ValueSound text d.value d.valueSpan) :
    (embedDirective t script id d).copied = script.copied ++ codeAt t id := by
  unfold embedDirective codeAt
  rw [hdata]
  dsimp only
  cases hspan : d.valueSpan with
  | none => simp
  | some valueSpan =>
    obtain ⟨_, hvalue⟩ := hsound valueSpan hspan
    rw [hvalue]
    dsimp only
    rw [CodeGen.copied_addMapping _ (by simp), embed_copied]

/-- **The second round copies what a walk over the tree comes to.** -/
theorem emit_copied (ht : t.Sound text) (fuel : Nat) :
    ∀ {script : CodeGen} {spans : List Span} (id : Nat), script.copied = spans →
      (emit t fuel script id).copied = t.walk (isEntered t) (addCodeAt t) fuel spans id := by
  induction fuel with
  | zero => exact fun _ h => h
  | succ fuel ih =>
    intro script spans id h
    have hnode := ht.node id
    have hchildren := List.foldl_rel (r := fun script spans => CodeGen.copied script = spans)
      (l := t.children id) (f := emit t fuel) (g := t.walk (isEntered t) (addCodeAt t) fuel) h
      fun child _ script spans h => ih child h
    unfold emit Tree.walk isEntered addCodeAt
    split
    · next e hdata =>
      have hraw : t.rawElement? id = RawElement.ofName? e.tag := by rw [Tree.rawElement?, hdata]
      have hcode : codeAt t id = [] := by rw [codeAt, hdata]
      rw [Tree.kind_of_data hdata, hraw, hcode, List.append_nil]
      dsimp only [NodeData.kind]
      cases (RawElement.ofName? e.tag) with
      | some raw => exact h
      | none => exact hchildren
    · next hdata =>
      have hcode : codeAt t id = [] := by rw [codeAt, hdata]
      rw [Tree.kind_of_data hdata, hcode, List.append_nil]
      exact hchildren
    · next code inner hdata =>
      rw [Tree.kind_of_data hdata, embed_copied, h, codeAt, hdata]
      rfl
    · next d hdata =>
      obtain ⟨_, hsound⟩ := hnode (by rw [hdata]; simp)
      rw [hdata] at hsound
      rw [Tree.kind_of_data hdata, embedDirective_copied hdata hsound, h]
      rfl
    · next helement hattr hmustache hdirective =>
      have hcode : codeAt t id = [] := by
        unfold codeAt
        split
        · next hdata => exact absurd hdata (hmustache _ _)
        · next hdata => exact absurd hdata (hdirective _)
        · rfl
      have hkind : isEntered t id = false := by
        unfold isEntered Tree.kind
        cases hdata : t.data id
        case element => exact absurd hdata (helement _)
        case attr => exact absurd hdata (hattr _)
        all_goals rfl
      rw [hcode, List.append_nil, if_neg (by rw [← isEntered, hkind]; decide)]
      exact h

/-! ## The script -/

section Stands

variable {pos : Nat} {path : List NodeKind} {xs : List Piece} {d : Draft}

/-- Only the root, elements and attributes have anything below them; so the walk comes to a node
unless there is an opaque element above it. -/
theorem seen_of_stands (h : d.Stands pieces .template text pos path xs) (i : Nat) :
    d.tree.seen (isEntered d.tree) i
      = (d.tree.ancestors i).all fun a => (d.tree.rawElement? a).isNone := by
  rw [Tree.seen, Bool.eq_iff_iff, List.all_eq_true, List.all_eq_true]
  refine forall₂_congr fun a ha => Bool.eq_iff_iff.1 ?_
  obtain ⟨c, hc⟩ := Tree.exists_child_of_mem_ancestors h.shape ha
  obtain ⟨hnests, hroot⟩ := h.nests c a hc
  -- an ancestor is something's parent, and only three kinds may be
  have hkinds : d.tree.kind a = .root ∨ d.tree.kind a = .element ∨ d.tree.kind a = .attr := by
    simpa [Dialect.nests, or_assoc] using hnests
  rcases hkinds with hkind | hkind | hkind
  · rw [Tree.rawElement?_of_kind (by rw [hkind]; decide), hroot hkind]
    rfl
  · have hne : (a == Tree.root) = false := by
      refine beq_eq_false_iff_ne.2 fun heq => ?_
      rw [heq, h.chain.root_kind] at hkind
      simp at hkind
    rw [hne, isEntered, hkind]
    rfl
  · rw [Tree.rawElement?_of_kind (by rw [hkind]; decide), isEntered, hkind, Bool.or_true]
    rfl

theorem codeOutside_root (h : d.Stands pieces .template text pos path xs) :
    codeOutside d.tree Tree.root = [] := by
  have hkind : (d.tree.data Tree.root).kind = .root := h.chain.root_kind
  unfold codeOutside codeAt
  cases hdata : d.tree.data Tree.root <;> rw [hdata] at hkind <;> simp [NodeData.kind] at hkind
  simp

/-- What the second round copies. -/
theorem second_round (h : d.Stands pieces .template text pos path xs) (script : CodeGen) :
    ((d.tree.children Tree.root).foldl (emit d.tree d.tree.size) script).copied
      = script.copied ++ (List.range d.tree.size).flatMap (codeOutside d.tree) := by
  have hwalk := List.foldl_rel (r := fun script spans => CodeGen.copied script = spans)
    (l := d.tree.children Tree.root) (f := emit d.tree d.tree.size)
    (g := d.tree.walk (isEntered d.tree) (addCodeAt d.tree) d.tree.size)
    (a := script) rfl fun child _ script spans hs => emit_copied h.tree_sound d.tree.size child hs
  have hadd := foldl_copied id (f := addCodeAt d.tree) (g := codeAt d.tree) fun _ _ => rfl
  have hfilter (l : List Nat) : (l.filter (d.tree.seen (isEntered d.tree))).flatMap (codeAt d.tree)
      = l.flatMap (codeOutside d.tree) := by
    induction l with
    | nil => rfl
    | cons i l ih =>
      rw [List.filter_cons, List.flatMap_cons, codeOutside, ← seen_of_stands h, ← ih]
      split <;> simp
  rw [hwalk, Tree.walk_children h.shape, show List.foldl _ _ _ = _ from hadd _ _, hfilter,
    h.shape.range_eq, List.flatMap_cons, codeOutside_root h]
  rfl

/-- **The code that belongs into the script is copied into it**, each piece once, and nothing else
is. -/
theorem ofTree_copied_perm (h : d.Stands pieces .template text pos path xs) (fileName : Text) :
    (ofTree d.tree fileName).copied.Perm
      ((xs.filter (Piece.inScript d.tree)).map Piece.source) := by
  -- the first round goes by the elements, the pieces by their own nodes: that is a rearrangement
  have hfirst : (d.tree.preorder.foldl (scriptElement d.tree) {}).script.copied
      = (List.range d.tree.size).flatMap fun p =>
          (d.tree.children p).flatMap (bodyBelow d.tree p) := by
    rw [Tree.preorder_eq_range h.shape, foldl_copied (fun out : Output => out.script.copied)
      (scriptElement_copied d.tree)]
    rfl
  have hbodies (i : Nat) :
      (match d.tree.parent i with | some p => bodyBelow d.tree p i | none => [])
        = bodyBelow d.tree ((d.tree.parent i).getD Tree.root) i := by
    -- a node without a parent is taken for a child of the root, which is no script
    have hroot : d.tree.rawElement? Tree.root = none :=
      Tree.rawElement?_of_kind (by rw [h.chain.root_kind]; decide)
    rcases d.tree.parent_cases i with hp | ⟨p, hp⟩
    · rw [hp, Option.getD_none, bodyBelow, hroot]
      rfl
    · rw [hp]
      rfl
  have hpieces : (xs.filter (Piece.inScript d.tree)).map Piece.source
      = (List.range d.tree.size).flatMap fun i =>
          bodyBelow d.tree ((d.tree.parent i).getD Tree.root) i ++ codeOutside d.tree i := by
    rw [← h.gathered, Tree.gather, List.filter_flatMap, List.map_flatMap]
    exact List.flatMap_congr fun i _ => inScript_gatherAt d.tree i
  rw [hpieces]
  show ((d.tree.children Tree.root).foldl (emit d.tree d.tree.size) _).copied.Perm _
  rw [second_round h, hfirst]
  refine List.Perm.trans ?_ (List.flatMap_append_perm _ _ _)
  refine List.Perm.append_right _ ?_
  refine (Tree.children_perm h.shape (bodyBelow d.tree)).trans (.of_eq ?_)
  exact List.flatMap_congr fun i _ => hbodies i

end Stands

end TemplateArtifact

end HybridMarkup
