/-
The dump of a tree: one line per node, in document order, indented by two spaces per level.

A line gives the kind and the span of its node and then what the node stands for. Texts are shown
quoted, so that no line can be broken by what it shows; names need no quotes, since none of them
can hold a line break.
-/
import HybridMarkup.Tree
import HybridMarkup.Text.Quoted

set_option autoImplicit false

namespace HybridMarkup

/-- A span as two offsets with two periods between them. -/
def Span.shown (s : Span) : Text := Text.ofNat s.start ++ ['.', '.'] ++ Text.ofNat s.stop

/-- A word of an opening line as it was written. -/
def CodeBlock.shownAttr : Text × Option Text → Text
  | (key, some value) => key ++ '=' :: value
  | (key, none) => key

/-- A value behind its equals sign, if there is one. -/
def Text.shownValue : Option Text → Text
  | some value => '=' :: Text.quoted value
  | none => []

/-- A directive in its long form, with its value. -/
def Directive.shown (d : Directive) : Text :=
  d.key ++ d.modifiers.flatMap ('.' :: ·) ++ Text.shownValue d.value

/-- What follows kind and span on the line of a node. -/
def NodeData.shown : NodeData → Text
  | .root => []
  | .paragraph => []
  | .text content => ' ' :: Text.quoted content
  | .comment content => ' ' :: Text.quoted content
  | .importStatement content => ' ' :: Text.quoted content
  | .jsxStatement content => ' ' :: Text.quoted content
  | .rawText content => ' ' :: Text.quoted content
  | .mustache content _ => ' ' :: Text.quoted content
  | .expressionStatement content _ isInline =>
    ' ' :: Text.quoted content ++ if isInline then " inline".toList else []
  | .codeBlock b =>
    (b.lang.map (" lang=".toList ++ ·)).getD [] ++
      b.attrs.flatMap (fun attr => ' ' :: CodeBlock.shownAttr attr) ++
      ' ' :: Text.quoted b.text
  | .element e =>
    " <".toList ++ e.tag ++ ['>'] ++ if e.selfClose then " self-close".toList else []
  | .attr a => ' ' :: a.name ++ Text.shownValue a.value
  | .directive d => ' ' :: d.shown

namespace Tree

/-- The line of a node at a depth, without its line break. -/
def dumpLine (t : Tree) (depth : Nat) (id : NodeId) : Text :=
  List.replicate (2 * depth) ' ' ++ (t.kind id).label.toList ++ '@' :: (t.span id).shown ++
    (t.data id).shown

/-- The lines of a node and of everything below it. A tree without cycles is not deeper than its
number of nodes. -/
def dumpIn (t : Tree) : Nat → Nat → NodeId → Text
  | 0, _, _ => []
  | fuel + 1, depth, id =>
    t.dumpLine depth id ++ '\n' :: (t.children id).flatMap (t.dumpIn fuel (depth + 1))

/-- The dump of the whole tree. -/
def dump (t : Tree) : Text := t.dumpIn t.size 0 root

end Tree

end HybridMarkup
