/-
Syntax trees of hybrid documents.

The nodes of a tree live in one array and refer to each other by their place in it. A node is
first allocated, which leaves it on its own, and then attached to a parent, which can happen
again and again; every node keeps its place among its parent's children in `slot`, so that its
neighbours are found without a search. Node 0 is the root.

Attaching keeps the two directions of the parent relation in step. It is one operation for all
cases: the node leaves its old parent, the later siblings close up, and the node becomes the last
child of the new one.
-/
import HybridMarkup.Token
import HybridMarkup.Directive

set_option autoImplicit false

namespace HybridMarkup

/-- The place of a node in its tree. -/
abbrev NodeId := Nat

/-- A fenced block. -/
structure CodeBlock where
  lang : Option Text
  /-- The words after the language, in order: a key, and a value if it has an equals sign. -/
  attrs : List (Text × Option Text)
  text : Text
  contentSpan : Span
  /-- The end of the opening line, without its line break. -/
  openerEnd : Nat
deriving DecidableEq, Repr, Inhabited

/-- An element of a template. -/
structure Element where
  tag : Text := []
  selfClose : Bool := false
  startTagEnd : Option Nat := none
  endTagStart : Option Nat := none
deriving DecidableEq, Repr, Inhabited

/-- An attribute that is not a directive. -/
structure Attribute where
  name : Text
  value : Option Text := none
  valueSpan : Option Span := none
deriving DecidableEq, Repr, Inhabited

/-- What a node stands for. -/
inductive NodeData where
  | root
  | text (text : Text)
  | comment (text : Text)
  | paragraph
  | codeBlock (block : CodeBlock)
  | importStatement (text : Text)
  | jsxStatement (text : Text)
  | expressionStatement (text : Text) (textSpan : Span) (isInline : Bool)
  | element (element : Element)
  | attr (attr : Attribute)
  | directive (directive : Directive)
  | mustache (text : Text) (textSpan : Span)
  | rawText (text : Text)
deriving DecidableEq, Repr, Inhabited

/-- The kind of a node. -/
inductive NodeKind where
  | root
  | text
  | comment
  | paragraph
  | codeBlock
  | importStatement
  | jsxStatement
  | expressionStatement
  | element
  | attr
  | directive
  | mustache
  | rawText
deriving DecidableEq, Repr, Inhabited

namespace NodeKind

/-- The name of the kind in a dump. -/
def label : NodeKind → String
  | root => "Root"
  | text => "Text"
  | comment => "Comment"
  | paragraph => "Paragraph"
  | codeBlock => "CodeBlock"
  | importStatement => "ImportStatement"
  | jsxStatement => "JsxStatement"
  | expressionStatement => "ExpressionStatement"
  | element => "Element"
  | attr => "Attribute"
  | directive => "Directive"
  | mustache => "Mustache"
  | rawText => "RawText"

/-- Kinds that need something to close them and are reported when nothing does. -/
def isStructural : NodeKind → Bool
  | comment | codeBlock | element | mustache => true
  | _ => false

end NodeKind

/-- The kind of what a node stands for. -/
def NodeData.kind : NodeData → NodeKind
  | root => .root
  | text _ => .text
  | comment _ => .comment
  | paragraph => .paragraph
  | codeBlock _ => .codeBlock
  | importStatement _ => .importStatement
  | jsxStatement _ => .jsxStatement
  | expressionStatement _ _ _ => .expressionStatement
  | element _ => .element
  | attr _ => .attr
  | directive _ => .directive
  | mustache _ _ => .mustache
  | rawText _ => .rawText

/-- A node with its place in the document and its place in the tree. -/
structure Node where
  span : Span
  data : NodeData
  parent : Option NodeId := none
  children : List NodeId := []
  /-- The place among the children of the parent. -/
  slot : Nat := 0
deriving DecidableEq, Repr, Inhabited

/-- A syntax tree, finished or not, with the document it is about. -/
structure Tree where
  text : Text
  dialect : Dialect
  nodes : Array Node
deriving DecidableEq, Repr, Inhabited

namespace Tree

/-! ## Building -/

/-- The tree that has only a root, which covers the document. -/
def start (dialect : Dialect) (text : Text) : Tree :=
  { text, dialect, nodes := #[{ span := ⟨0, Text.size text⟩, data := .root }] }

/-- The root. -/
def root : NodeId := 0

/-- The node at a place. Beyond the last node there stands an empty root. -/
def node (t : Tree) (id : NodeId) : Node := t.nodes.getD id { span := ⟨0, 0⟩, data := .root }

/-- Changes one node. -/
def modify (t : Tree) (id : NodeId) (f : Node → Node) : Tree :=
  { t with nodes := t.nodes.modify id f }

/-- Adds a node on its own. -/
def alloc (t : Tree) (data : NodeData) (span : Span) : NodeId × Tree :=
  (t.nodes.size, { t with nodes := t.nodes.push { span, data } })

/-- Numbers the given siblings from `slot` on. -/
def renumber (t : Tree) : Nat → List NodeId → Tree
  | _, [] => t
  | slot, id :: ids => (t.modify id fun n => { n with slot }).renumber (slot + 1) ids

/-- Takes a node out of its parent's children, if it has a parent, and closes the gap. -/
def detach (t : Tree) (child : NodeId) : Tree :=
  match (t.node child).parent with
  | none => t
  | some old =>
    let slot := (t.node child).slot
    let t := t.modify child fun n => { n with parent := none }
    let t := t.modify old fun n => { n with children := n.children.eraseIdx slot }
    -- only the siblings behind the gap have moved
    t.renumber slot ((t.node old).children.drop slot)

/-- Makes a node the last child of a parent, wherever it was before. -/
def attach (t : Tree) (child parent : NodeId) : Tree :=
  let t := t.detach child
  let slot := (t.node parent).children.length
  let t := t.modify parent fun n => { n with children := n.children ++ [child] }
  t.modify child fun n => { n with parent := some parent, slot }

/-- Changes what a node stands for. -/
def setData (t : Tree) (id : NodeId) (data : NodeData) : Tree :=
  t.modify id fun n => { n with data }

/-- Changes the place of a node in the document. -/
def setSpan (t : Tree) (id : NodeId) (span : Span) : Tree :=
  t.modify id fun n => { n with span }

/-! ## Looking around -/

/-- What a node stands for. -/
def data (t : Tree) (id : NodeId) : NodeData := (t.node id).data

/-- The kind of a node. -/
def kind (t : Tree) (id : NodeId) : NodeKind := (t.data id).kind

/-- The place of a node in the document. -/
def span (t : Tree) (id : NodeId) : Span := (t.node id).span

/-- The parent of a node. -/
def parent (t : Tree) (id : NodeId) : Option NodeId := (t.node id).parent

/-- The children of a node, in order. -/
def children (t : Tree) (id : NodeId) : List NodeId := (t.node id).children

/-- The part of the document a node covers. -/
def nodeText (t : Tree) (id : NodeId) : Text := Text.slice t.text (t.span id)

/-- The number of nodes, attached or not. -/
def size (t : Tree) : Nat := t.nodes.size

/-- The sibling behind a node. -/
def nextSibling (t : Tree) (id : NodeId) : Option NodeId :=
  (t.parent id).bind fun p => (t.children p)[(t.node id).slot + 1]?

/-- The siblings in front of a node, the nearest first. -/
def siblingsBefore (t : Tree) (id : NodeId) : List NodeId :=
  match t.parent id with
  | none => []
  | some p => ((t.children p).take (t.node id).slot).reverse

/-- The sibling in front of a node. -/
def prevSibling (t : Tree) (id : NodeId) : Option NodeId := (t.siblingsBefore id).head?

/-- Climbs from a node to its topmost ancestor. A tree without cycles has no chain longer than
its number of nodes. -/
def ancestorsIn (t : Tree) : Nat → NodeId → List NodeId
  | 0, _ => []
  | fuel + 1, id =>
    match t.parent id with
    | none => []
    | some p => p :: t.ancestorsIn fuel p

/-- The ancestors of a node, its parent first. -/
def ancestors (t : Tree) (id : NodeId) : List NodeId := t.ancestorsIn t.size id

/-- Visits nodes from a stack, putting the children of each on top of it. A tree without cycles
has no more visits than nodes. -/
def visit (t : Tree) : Nat → List NodeId → List NodeId
  | 0, _ => []
  | _ + 1, [] => []
  | fuel + 1, id :: stack => id :: t.visit fuel (t.children id ++ stack)

/-- A node and everything below it, parents before children. -/
def descendants (t : Tree) (id : NodeId) : List NodeId := t.visit t.size [id]

/-- Every attached node in document order. -/
def preorder (t : Tree) : List NodeId := t.descendants root

end Tree

end HybridMarkup
