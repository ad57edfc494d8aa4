/-
What a dump tells of its tree.

A dump has a line for each node, in the order in which the nodes are visited, and a line is indented
by the depth of its node (`Tree.Lists.dumpIn`). Since no line is broken, the lines are found again at
the line feeds, and what a line tells of its node is read from its front (`DumpEntry.ofLine?_dumpLine`).
Which node is the parent of which is not written down, but it can be seen: between a node and its
child there are only nodes below the node, so the parent is the last node in front that is less deep
(`Tree.Shape.parentAmong_eq`).

So kinds, spans and nesting come back from the dump of a document (`Tree.outline`), and documents with
the same dump have them in common. Main statement: `Parse.dump_outlines`.
-/
import HybridMarkup.Proofs.DumpLines
import HybridMarkup.Proofs.Listings
import HybridMarkup.Proofs.TreeWellFormed

set_option autoImplicit false

namespace HybridMarkup

open Text

/-- What the line of a node tells before it comes to what the node stands for. -/
structure DumpEntry where
  depth : Nat
  kind : NodeKind
  span : Span
deriving DecidableEq, Repr

/-- A node without what it stands for, and with the nodes around it. -/
structure OutlineNode where
  kind : NodeKind
  span : Span
  parent : Option NodeId
  children : List NodeId
deriving DecidableEq, Repr

/-! ## Reading a line -/

namespace NodeKind

/-- The kinds of nodes. -/
def all : List NodeKind :=
  [root, text, comment, paragraph, codeBlock, importStatement, jsxStatement, expressionStatement,
    element, attr, directive, mustache, rawText]

/-- The kind with the given name. -/
def ofLabel? (label : Text) : Option NodeKind := all.find? fun kind => kind.label.toList == label

theorem ofLabel?_label (kind : NodeKind) : ofLabel? kind.label.toList = some kind := by
  cases kind <;> decide

end NodeKind

namespace Span

/-- Reads a span at the front of a text. -/
def ofShown? (t : Text) : Option Span := do
  let (start, stop) ← cutAt? '.' t
  return ⟨VirtualFile.digitsValue 0 start,
    VirtualFile.digitsValue 0 ((stop.drop 1).takeWhile Char.isDigit)⟩

theorem ofShown?_shown (s : Span) {rest : Text} (hrest : rest.takeWhile Char.isDigit = []) :
    ofShown? (s.shown ++ rest) = some s := by
  have hdigits (n : Nat) : ∀ c ∈ ofNat n, c.isDigit = true := fun _ => isDigit_of_mem_ofNat
  have hperiod : '.' ∉ ofNat s.start := fun h => absurd (hdigits _ _ h) (by decide)
  have hshown : s.shown ++ rest = ofNat s.start ++ '.' :: '.' :: (ofNat s.stop ++ rest) := by
    simp [shown]
  rw [hshown, ofShown?, cutAt?_of_not_mem hperiod]
  dsimp only [Option.bind_eq_bind, Option.bind_some]
  rw [List.drop_one, List.tail_cons, List.takeWhile_append_of_pos (hdigits _), hrest,
    List.append_nil, VirtualFile.digitsValue_ofNat, VirtualFile.digitsValue_ofNat]
  rfl

end Span

namespace DumpEntry

/-- Reads the front of a line. -/
def ofLine? (line : Text) : Option DumpEntry := do
  let indent := line.takeWhile (· == ' ')
  let (label, place) ← cutAt? '@' (line.dropWhile (· == ' '))
  let kind ← NodeKind.ofLabel? label
  let span ← Span.ofShown? place
  return { depth := indent.length / 2, kind, span }

/-- What follows the span is set off by a space. -/
theorem shown_cases (data : NodeData) :
    data.shown = [] ∨ ∃ rest, data.shown = ' ' :: rest := by
  have hlang : " lang=".toList = ' ' :: "lang=".toList := by decide
  have htag : " <".toList = ' ' :: "<".toList := by decide
  cases data with
  | root | paragraph => exact .inl rfl
  | codeBlock b =>
    rw [NodeData.shown]
    refine .inr ?_
    cases b.lang with
    | some lang =>
      rw [Option.map_some, Option.getD_some, hlang]
      exact ⟨_, rfl⟩
    | none =>
      cases b.attrs with
      | nil => exact ⟨_, rfl⟩
      | cons attr attrs => exact ⟨_, rfl⟩
  | element e =>
    rw [NodeData.shown, htag]
    exact .inr ⟨_, rfl⟩
  | _ => exact .inr ⟨_, rfl⟩

/-- What follows the span does not go on with its digits. -/
theorem takeWhile_shown (data : NodeData) : data.shown.takeWhile Char.isDigit = [] := by
  obtain hnil | ⟨rest, hspace⟩ := shown_cases data
  · rw [hnil]
    rfl
  · rw [hspace]
    rfl

/-- Where the indentation ends. -/
theorem indentation {t : Text} (ht : t.head? ≠ some ' ') (n : Nat) :
    (List.replicate n ' ' ++ t).takeWhile (· == ' ') = List.replicate n ' ' ∧
      (List.replicate n ' ' ++ t).dropWhile (· == ' ') = t := by
  have hspaces : ∀ c ∈ List.replicate n ' ', (c == ' ') = true := by simp
  rw [List.takeWhile_append_of_pos hspaces, List.dropWhile_append_of_pos hspaces]
  cases t with
  | nil => simp
  | cons c t =>
    have hc : (c == ' ') = false := by simpa using ht
    simp [hc]

/-- **A line is read back.** -/
theorem ofLine?_dumpLine (t : Tree) (depth i : Nat) :
    ofLine? (t.dumpLine depth i) = some ⟨depth, t.kind i, t.span i⟩ := by
  have hlabel : '@' ∉ (t.kind i).label.toList ∧
      ∀ rest, ((t.kind i).label.toList ++ rest).head? ≠ some ' ' := by
    cases t.kind i <;> exact ⟨by decide, fun rest => by simp [NodeKind.label]⟩
  have hline : t.dumpLine depth i = List.replicate (2 * depth) ' ' ++
      ((t.kind i).label.toList ++ '@' :: ((t.span i).shown ++ (t.data i).shown)) := by
    simp [Tree.dumpLine]
  obtain ⟨hindent, hbody⟩ :=
    indentation (hlabel.2 ('@' :: ((t.span i).shown ++ (t.data i).shown))) (2 * depth)
  rw [hline, ofLine?, hindent, hbody, cutAt?_of_not_mem hlabel.1]
  dsimp only [Option.bind_eq_bind, Option.bind_some]
  rw [NodeKind.ofLabel?_label, Span.ofShown?_shown _ (takeWhile_shown _), List.length_replicate,
    Nat.mul_div_cancel_left depth (by decide)]
  rfl

end DumpEntry

/-! ## Reading the nesting -/

/-- The greatest number below a bound of which something is true. -/
def lastBelow (p : Nat → Bool) : Nat → Option Nat
  | 0 => none
  | n + 1 => if p n then some n else lastBelow p n

theorem lastBelow_eq_some {p : Nat → Bool} {k n : Nat} (hlt : k < n) (hk : p k = true)
    (habove : ∀ j, k < j → j < n → p j = false) : lastBelow p n = some k := by
  induction n with
  | zero => exact absurd hlt (Nat.not_lt_zero k)
  | succ n ih =>
    rw [lastBelow]
    by_cases heq : k = n
    · rw [← heq, if_pos hk]
    · have hkn : k < n := by omega
      rw [habove n hkn (Nat.lt_succ_self n), if_neg Bool.false_ne_true]
      exact ih hkn fun j hj hjn => habove j hj (Nat.lt_succ_of_lt hjn)

/-- The node above another one, where the nodes have these depths: the last one in front of it that
is less deep. -/
def parentAmong (depths : List Nat) (i : NodeId) : Option NodeId :=
  lastBelow (fun j => decide (depths.getD j 0 < depths.getD i 0)) i

/-- The nodes of which the lines of a dump tell. -/
def outlineOf (entries : List DumpEntry) : List OutlineNode :=
  let parent := parentAmong (entries.map DumpEntry.depth)
  entries.mapIdx fun i entry =>
    { kind := entry.kind
      span := entry.span
      parent := parent i
      children := (List.range entries.length).filter fun c => parent c = some i }

/-- Reads a dump. -/
def readDump? (dump : Text) : Option (List OutlineNode) :=
  ((splitAt '\n' dump).dropLast.mapM DumpEntry.ofLine?).map outlineOf

namespace Tree

variable {t : Tree} {edge i p : Nat}

/-- The number of nodes above a node. -/
def depth (t : Tree) (i : NodeId) : Nat := (t.ancestors i).length

/-- The nodes in the order of the document, without what they stand for. -/
def outline (t : Tree) : List OutlineNode :=
  t.preorder.map fun i =>
    { kind := t.kind i, span := t.span i, parent := t.parent i, children := t.children i }

/-- What the line of a node is to tell. -/
def entry (t : Tree) (i : NodeId) : DumpEntry := ⟨t.depth i, t.kind i, t.span i⟩

theorem depth_of_parent (h : t.Shape edge) (hp : t.parent i = some p) :
    t.depth i = t.depth p + 1 := by
  rw [depth, ancestors_of_parent h hp]
  rfl

/-- What is between a node and its child is deeper than the node. -/
theorem Shape.depth_lt (h : t.Shape edge) (hp : t.parent i = some p) {j : Nat} (hpj : p < j)
    (hji : j < i) : t.depth p < t.depth j := by
  induction j using Nat.strongRecOn with
  | ind j ih =>
    obtain ⟨q, hpq, hq⟩ := h.nested i j p hp hpj hji
    have hqj := h.parent_lt hq
    rw [depth_of_parent h hq]
    rcases Nat.eq_or_lt_of_le hpq with rfl | hlt
    · exact Nat.lt_succ_self _
    · exact Nat.lt_succ_of_lt (ih q hqj hlt (by omega))

/-- **The parent of a node** is the last node in front of it that is less deep. -/
theorem Shape.parentAmong_eq (h : t.Shape edge) (hi : i < t.size) :
    parentAmong ((List.range t.size).map t.depth) i = t.parent i := by
  have hdepth {j : Nat} (hj : j < t.size) :
      ((List.range t.size).map t.depth).getD j 0 = t.depth j := by
    simp [List.getD_eq_getElem?_getD, hj]
  unfold parentAmong
  rcases Nat.eq_zero_or_pos i with rfl | hpos
  · exact h.root.symm
  · obtain ⟨p, hpi, hp⟩ := h.older i hpos hi
    rw [hp]
    -- the parent is less deep, and nothing that is behind it is
    refine lastBelow_eq_some hpi ?_ fun j hpj hji => ?_
    · rw [hdepth hi, hdepth (Nat.lt_trans hpi hi), depth_of_parent h hp]
      exact decide_eq_true (Nat.lt_succ_self _)
    · have hlt := h.depth_lt hp hpj hji
      rw [hdepth hi, hdepth (Nat.lt_trans hji hi), depth_of_parent h hp]
      exact decide_eq_false (by omega)

/-- What the lines tell is the outline. -/
theorem Shape.outlineOf_eq (h : t.Shape edge) :
    outlineOf (t.preorder.map t.entry) = t.outline := by
  have hdepths : (t.preorder.map t.entry).map DumpEntry.depth
      = (List.range t.size).map t.depth := by
    rw [preorder_eq_range h, List.map_map]
    rfl
  unfold outlineOf outline
  rw [hdepths, preorder_eq_range h]
  refine List.ext_getElem (by simp) fun i hi _ => ?_
  have hlt : i < t.size := by simpa using hi
  have hchildren : ((List.range t.size).filter fun c =>
      parentAmong ((List.range t.size).map t.depth) c = some i) = t.children i := by
    rw [h.listed i hlt]
    refine List.filter_congr fun c hc => ?_
    rw [h.parentAmong_eq (List.mem_range.1 hc)]
  simp only [List.getElem_mapIdx, List.getElem_map, List.getElem_range, List.length_map,
    List.length_range, entry, hchildren, h.parentAmong_eq hlt]

/-! ## The lines of a dump -/

/-- **The lines of a dump are those of the nodes in the order in which they are visited**, each
indented by the level of its node, if there are levels. -/
theorem Lists.dumpIn {roots l : List NodeId} (h : t.Lists roots l) (level : NodeId → Nat)
    (hlevel : ∀ i ∈ l, ∀ c ∈ t.children i, level c = level i + 1) (fuel depth : Nat)
    (hfuel : l.length ≤ fuel) (hroots : ∀ r ∈ roots, level r = depth) :
    roots.flatMap (t.dumpIn fuel depth) = l.flatMap fun i => t.dumpLine (level i) i ++ ['\n'] := by
  induction h generalizing fuel depth with
  | nil => rfl
  | @cons i rest below behind _ _ ihchildren ihsiblings =>
    have hlength : below.length + behind.length + 1 ≤ fuel := by simpa using hfuel
    obtain ⟨fuel, rfl⟩ : ∃ n, fuel = n + 1 := ⟨fuel - 1, by omega⟩
    have hi : level i = depth := hroots i List.mem_cons_self
    -- one fuel less is enough for what is below the node, which is not in its own listing
    have hbelow := ihchildren (fun j hj => hlevel j (by simp [hj])) fuel (depth + 1) (by omega)
      fun c hc => by rw [hlevel i List.mem_cons_self c hc, hi]
    have hbehind := ihsiblings (fun j hj => hlevel j (by simp [hj])) (fuel + 1) depth (by omega)
      fun r hr => hroots r (List.mem_cons_of_mem i hr)
    rw [List.flatMap_cons, List.flatMap_cons, List.flatMap_append, hbehind, Tree.dumpIn, hbelow, hi]
    simp

/-- The dump of a whole tree. -/
theorem Shape.dump_eq (h : t.Shape edge) (hlinked : t.Linked) :
    t.dump = t.preorder.flatMap fun i => t.dumpLine (t.depth i) i ++ ['\n'] := by
  have hroot : Tree.root < t.size := Nat.lt_of_le_of_lt (Nat.zero_le _) h.edge_lt
  have hlists := (descendants_lists hlinked h.acyclic hroot).1
  have hlength : t.preorder.length ≤ t.size := by
    rw [preorder_eq_range h, List.length_range]
  have hdepth : t.depth Tree.root = 0 := by rw [depth, ancestors_root h, List.length_nil]
  have hdump := hlists.dumpIn t.depth
    (fun i _ c hc => depth_of_parent h (hlinked.mem_children_iff.1 hc)) t.size 0 hlength
    (by simpa using hdepth)
  rw [List.flatMap_singleton] at hdump
  exact hdump

end Tree

/-- Lines are found again where they end. -/
theorem Text.splitAt_lines {lines : List Text} (h : ∀ line ∈ lines, '\n' ∉ line) :
    splitAt '\n' (lines.flatMap (· ++ ['\n'])) = lines ++ [[]] := by
  have hfirst (line rest : Text) (hline : '\n' ∉ line) :
      splitAt '\n' (line ++ '\n' :: rest) = line :: splitAt '\n' rest := by
    induction line with
    | nil => rfl
    | cons c line ih =>
      obtain ⟨hc, hline⟩ := not_or.1 (mt List.mem_cons.2 hline)
      rw [List.cons_append, splitAt, if_neg (Ne.symm hc), ih hline]
  induction lines with
  | nil => rfl
  | cons line lines ih =>
    obtain ⟨hline, hlines⟩ := List.forall_mem_cons.1 h
    rw [List.flatMap_cons, List.append_assoc, List.singleton_append, hfirst _ _ hline, ih hlines]
    rfl

/-- **A dump is read back**, if no name has a line feed. -/
theorem Tree.Shape.readDump?_dump {t : Tree} {edge : Nat} (h : t.Shape edge) (hlinked : t.Linked)
    (hnames : ∀ i : Nat, '\n' ∉ (t.data i).names) :
    splitAt '\n' t.dump = (t.preorder.map fun i => t.dumpLine (t.depth i) i) ++ [[]] ∧
      readDump? t.dump = some t.outline := by
  have hlines : splitAt '\n' t.dump = (t.preorder.map fun i => t.dumpLine (t.depth i) i) ++ [[]] := by
    rw [← Text.splitAt_lines, List.flatMap_map, h.dump_eq hlinked]
    simp only [List.mem_map, forall_exists_index, and_imp, forall_apply_eq_imp_iff₂]
    exact fun i _ => Tree.line_not_mem_dumpLine (hnames i) _
  refine ⟨hlines, ?_⟩
  have hread : (t.preorder.map fun i => t.dumpLine (t.depth i) i).mapM DumpEntry.ofLine?
      = some (t.preorder.map t.entry) := by
    induction t.preorder with
    | nil => rfl
    | cons i ids ih =>
      simp only [List.map_cons, List.mapM_cons, DumpEntry.ofLine?_dumpLine, ih]
      rfl
  rw [readDump?, hlines, List.dropLast_concat, hread, Option.map_some, h.outlineOf_eq]

namespace Parse

/-- **The dump of a document tells the shape of its tree.** It has a line for each node, ended by a
line feed, in the order in which the nodes are visited. A line begins with two spaces for each node
above its node, its kind and its span. From that the kinds, the spans and the nesting of the nodes
are read back, so they are the same in any two documents with the same dump. -/
theorem dump_outlines (options : ParseOptions) (text : Text) :
    let tree := (ofText options text).tree
    splitAt '\n' tree.dump = (tree.preorder.map fun i =>
        List.replicate (2 * tree.depth i) ' ' ++ (tree.kind i).label.toList ++
          '@' :: (tree.span i).shown ++ (tree.data i).shown) ++ [[]] ∧
      tree.preorder = List.range tree.size ∧
      readDump? tree.dump = some tree.outline ∧
      ∀ (options' : ParseOptions) (text' : Text), (ofText options' text').tree.dump = tree.dump →
        (ofText options' text').tree.outline = tree.outline := by
  have hread (options : ParseOptions) (text : Text) :=
    (draft_laid options.dialect text).1.shape.readDump?_dump
      (tree_wellFormed options text).slotted (draft_unbroken options.dialect text)
  intro tree
  obtain ⟨hlines, houtline⟩ := hread options text
  refine ⟨hlines, Tree.preorder_eq_range (draft_laid options.dialect text).1.shape, houtline,
    fun options' text' hdump => ?_⟩
  -- the reader gives back both outlines, and it has read the same
  have houtline' := (hread options' text').2
  rw [show (draft options'.dialect text').tree.dump = tree.dump from hdump] at houtline'
  exact Option.some.inj (houtline'.symm.trans houtline)

/-- By which blank an attribute is set off is not in the dump, and makes no difference to the shape. -/
theorem dump_outlines_tab :
    let text : Text := "<p a>x</p>".toList
    let text' : Text := "<p\ta>x</p>".toList
    (ofText { dialect := .template } text').tree.dump
        = (ofText { dialect := .template } text).tree.dump ∧
      (ofText { dialect := .template } text').tree.outline
        = (ofText { dialect := .template } text).tree.outline := by
  intro text text'
  have hdump : (ofText { dialect := .template } text').tree.dump
      = (ofText { dialect := .template } text).tree.dump := by
    decide +kernel
  exact ⟨hdump, (dump_outlines { dialect := .template } text).2.2.2 _ _ hdump⟩

end Parse

end HybridMarkup
