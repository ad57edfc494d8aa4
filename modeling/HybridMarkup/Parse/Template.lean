/-
How tokens of a template build the tree: elements, attributes and directives, mustaches.

An end tag closes the nearest open element of its name. What is open below that element is closed
with it and reported; an end tag that finds no element of its name changes nothing and is
reported itself. The value of an attribute is the source between its quotes, whatever tokens it
was read in, so each of them only widens the value's span.
-/
import HybridMarkup.Parse.Draft

set_option autoImplicit false

namespace HybridMarkup

/-- The elements that have no content and no end tag. -/
def voidElements : List Text :=
  ["area", "base", "br", "col", "embed", "hr", "img", "input", "link", "meta", "source", "track",
    "wbr"].map String.toList

/-- Whether an element of this name has no content. -/
def isVoid (tag : Text) : Bool := voidElements.any (Text.equalIgnoringCase tag)

namespace Draft

/-- Text between tags, unless it is blank. -/
def templateText (d : Draft) (t : Token) : Draft :=
  if Text.isAllBlank t.lexeme then d else d.leaf (.text t.lexeme) t.span

/-- Goes back to the element if one of its attributes is open. -/
def leaveAttribute (d : Draft) : Draft :=
  match d.currentData with
  | .attr _ => d.ascend
  | .directive _ => d.ascend
  | _ => d

/-- The bracket of a start tag. -/
def startTagOpen (d : Draft) (t : Token) : Draft :=
  d.leaveAttribute.openNode (.element {}) t.span

/-- The name of a start tag. -/
def startTag (d : Draft) (t : Token) : Draft :=
  let d :=
    match d.currentData with
    | .element e => d.setCurrent (.element { e with tag := t.lexeme })
    | _ => d
  d.extend t.span.stop

/-- How a sibling makes an attribute a duplicate: by the same name, or as a directive with the
same key. -/
def duplicateOf? (sibling data : NodeData) : Option ParseError :=
  match sibling, data with
  | .attr a, .attr b => if a.name = b.name then some .attributeDuplicate else none
  | .directive a, .directive b => if a.key = b.key then some .commandDuplicate else none
  | _, _ => none

/-- The name of an attribute or directive. Duplicates are kept, and each is warned about. -/
def attributeName (d : Draft) (t : Token) (data : NodeData) : Draft :=
  let d := d.leaveAttribute
  -- looked up before the new node is attached, which would be its own duplicate
  let duplicate := (d.tree.children d.current).findSome? fun sibling =>
    duplicateOf? (d.tree.data sibling) data
  let d := d.openNode data t.span
  match duplicate with
  | some error => d.report error t.span
  | none => d

/-- Widens the value of the open attribute to include the given span. -/
def attributeValue (d : Draft) (span : Span) : Draft :=
  let widened (old : Option Span) : Span := (old.map (·.cover span)).getD span
  let covered (old : Option Span) : Option Text := some (Text.slice d.tree.text (widened old))
  match d.currentData with
  | .attr a =>
    (d.setCurrent (.attr
      { a with value := covered a.valueSpan, valueSpan := some (widened a.valueSpan) })).extend
      span.stop
  | .directive a =>
    (d.setCurrent (.directive
      { a with value := covered a.valueSpan, valueSpan := some (widened a.valueSpan) })).extend
      span.stop
  | _ => d

/-- The end of a start tag. A void element ends with it. -/
def startTagClose (d : Draft) (t : Token) : Draft :=
  let d := d.leaveAttribute
  match d.currentData with
  | .element e =>
    let d := d.setCurrent (.element { e with startTagEnd := some t.span.stop })
    if isVoid e.tag then d.close t.span.stop else d.extend t.span.stop
  | _ => d.extend t.span.stop

/-- The end of a start tag that is an end tag as well. -/
def startTagSelfClose (d : Draft) (t : Token) : Draft :=
  let d := d.leaveAttribute
  match d.currentData with
  | .element e =>
    (d.setCurrent (.element
      { e with selfClose := true, startTagEnd := some t.span.stop })).close t.span.stop
  | _ => d

/-- The bracket of an end tag. -/
def endTagOpen (d : Draft) (t : Token) : Draft :=
  { d.leaveAttribute with endTagStart := t.span.start, endTagName := none }

/-- The name of an end tag. -/
def endTagNamed (d : Draft) (t : Token) : Draft := { d with endTagName := some t.lexeme }

/-- The nearest of the open nodes that is an element of the given name. -/
def openElement? (d : Draft) (name : Text) : Option NodeId :=
  (d.current :: d.tree.ancestors d.current).find? fun id =>
    match d.tree.data id with
    | .element e => Text.equalIgnoringCase e.tag name
    | _ => false

/-- Closes open nodes, innermost first, until `target` is the open one. They form a chain of
ancestors, so there are no more of them than nodes. -/
def closeDownTo (target : NodeId) (start : Nat) : Nat → Draft → Draft
  | 0, d => d
  | fuel + 1, d =>
    if d.current = target then d
    else closeDownTo target start fuel ((d.setEndTagStart d.current start).closeUnterminated start)

/-- The end of an end tag. One without a name closes nothing. -/
def endTagClose (d : Draft) (stop : Nat) : Draft :=
  match d.endTagName with
  | none => d
  | some name =>
    let d := { d with endTagName := none }
    match d.openElement? name with
    | none => d.report .extraCloseTag ⟨d.endTagStart, stop⟩
    | some target =>
      ((closeDownTo target d.endTagStart d.tree.size d).setEndTagStart target
        d.endTagStart).close stop

/-- The braces that open a mustache. -/
def mustacheStart (d : Draft) (t : Token) : Draft :=
  d.openNode (.mustache [] (Span.empty t.span.stop)) t.span

/-- The code in a mustache. -/
def mustacheContent (d : Draft) (t : Token) : Draft :=
  let d :=
    match d.currentData with
    | .mustache _ _ => d.setCurrent (.mustache t.lexeme t.span)
    | _ => d
  d.extend t.span.stop

/-- The braces that close a mustache. A mustache in an attribute is part of its value. -/
def mustacheEnd (d : Draft) (t : Token) : Draft :=
  match d.currentData with
  | .mustache _ _ =>
    let mustache := d.current
    let d := d.close t.span.stop
    d.attributeValue (d.tree.span mustache)
  | _ => d

end Draft

end HybridMarkup
