/-
A syntax tree under construction.

A draft is a tree together with the node that is open at the moment, to which whatever comes next
is attached, and with what has been reported so far. Nodes grow as their children do, so that an
ancestor always covers everything below it; a node that is closed gets its final end and hands
that end on to its parent.
-/
import HybridMarkup.Diagnostic
import HybridMarkup.Tree

set_option autoImplicit false

namespace HybridMarkup

/-- A fault in how the tokens of a document fit together. -/
inductive ParseError where
  | tagUnclosed
  | mustacheEndExpected
  | extraCloseTag
  | attributeDuplicate
  | commandDuplicate
deriving DecidableEq, Repr

namespace ParseError

/-- The name under which the fault is reported. -/
def name : ParseError → String
  | tagUnclosed => "tagUnClosed"
  | mustacheEndExpected => "mustacheEndExpected"
  | extraCloseTag => "extraCloseTag"
  | attributeDuplicate => "attributeDuplicate"
  | commandDuplicate => "commandDuplicate"

/-- The sentence that explains the fault. -/
def message : ParseError → String
  | tagUnclosed => "Tag is not closed."
  | mustacheEndExpected => "Mustache end expected."
  | extraCloseTag => "Extra closing tags."
  | attributeDuplicate => "Attribute duplicate."
  | commandDuplicate => "Command duplicate."

/-- Duplicates are tolerated; everything else is not. -/
def severity : ParseError → Severity
  | attributeDuplicate => .warn
  | commandDuplicate => .warn
  | _ => .error

end ParseError

/-- A tree under construction. -/
structure Draft where
  tree : Tree
  diagnostics : Diagnostics := {}
  /-- The open node. -/
  current : NodeId := Tree.root
  /-- The name of the end tag being read, if it has one. -/
  endTagName : Option Text := none
  /-- Where the end tag being read begins. -/
  endTagStart : Nat := 0
deriving Repr, Inhabited

namespace Draft

/-- The draft of which nothing has been read. -/
def start (dialect : Dialect) (text : Text) : Draft := { tree := Tree.start dialect text }

/-- What the open node stands for. -/
def currentData (d : Draft) : NodeData := d.tree.data d.current

/-- The kind of the open node. -/
def currentKind (d : Draft) : NodeKind := d.tree.kind d.current

/-- Changes what a node stands for. -/
def setData (d : Draft) (id : NodeId) (data : NodeData) : Draft :=
  { d with tree := d.tree.setData id data }

/-- Changes what the open node stands for. -/
def setCurrent (d : Draft) (data : NodeData) : Draft := d.setData d.current data

/-- Moves the end of a node to at least `stop`. -/
def grow (d : Draft) (id : NodeId) (stop : Nat) : Draft :=
  { d with tree := d.tree.setSpan id ((d.tree.span id).growTo stop) }

/-- Moves the end of the open node to at least `stop`. -/
def extend (d : Draft) (stop : Nat) : Draft := d.grow d.current stop

/-- Attaches a new node to the open one, which covers it from now on. -/
def addChild (d : Draft) (data : NodeData) (span : Span) : NodeId × Draft :=
  let (id, tree) := d.tree.alloc data span
  (id, { d with tree := tree.attach id d.current }.extend span.stop)

/-- Attaches a new node that takes no children. -/
def leaf (d : Draft) (data : NodeData) (span : Span) : Draft := (d.addChild data span).2

/-- Attaches a new node and opens it. -/
def openNode (d : Draft) (data : NodeData) (span : Span) : Draft :=
  let (id, d) := d.addChild data span
  { d with current := id }

/-- Goes back to the parent of the open node, which grows to cover it. -/
def ascend (d : Draft) : Draft :=
  match d.tree.parent d.current with
  | none => d
  | some p => { d with current := p }.grow p (d.tree.span d.current).stop

/-- Ends the open node at `stop`, or at its start if that is later, and goes back to its
parent. -/
def close (d : Draft) (stop : Nat) : Draft :=
  let span := d.tree.span d.current
  { d with tree := d.tree.setSpan d.current ⟨span.start, max stop span.start⟩ }.ascend

/-- Reports a fault. -/
def report (d : Draft) (error : ParseError) (span : Span) : Draft :=
  let entry :=
    { name := error.name, message := error.message, severity := error.severity, span }
  { d with diagnostics := d.diagnostics.push entry }

/-- Reports the fault of a token. -/
def reportLexical (d : Draft) (error : LexError) (span : Span) : Draft :=
  let entry := { name := error.name, message := error.message, severity := .error, span }
  { d with diagnostics := d.diagnostics.push entry }

/-- Ends the open node at `stop` although nothing closed it, and reports it if its kind needs to
be closed. An element whose start tag has not ended either ends it here. -/
def closeUnterminated (d : Draft) (stop : Nat) : Draft :=
  let start := (d.tree.span d.current).start
  let d :=
    match d.currentData with
    | .element e =>
      -- what is reported is the start tag, not all that it was meant to contain
      let startTagEnd := e.startTagEnd.getD stop
      (d.setCurrent (.element { e with startTagEnd := some startTagEnd })).report .tagUnclosed
        ⟨start, startTagEnd⟩
    | .mustache _ _ => d.report .mustacheEndExpected ⟨start, stop⟩
    | data => if data.kind.isStructural then d.report .tagUnclosed ⟨start, stop⟩ else d
  d.close stop

/-- Records where the end tag of a node begins, if the node is an element. -/
def setEndTagStart (d : Draft) (id : NodeId) (start : Nat) : Draft :=
  match d.tree.data id with
  | .element e => d.setData id (.element { e with endTagStart := some start })
  | _ => d

/-- The end of an element that has none yet is the end of the text. -/
def supplyEndTagStart (d : Draft) (stop : Nat) : Draft :=
  match d.currentData with
  | .element e => d.setCurrent (.element { e with endTagStart := e.endTagStart.or (some stop) })
  | _ => d

/-- Closes what is still open at the end of the text. The open nodes form a chain of ancestors,
so there are no more of them than nodes. -/
def finishIn : Nat → Nat → Draft → Draft
  | 0, _, d => d
  | fuel + 1, stop, d =>
    if d.current = Tree.root then d
    else finishIn fuel stop ((d.supplyEndTagStart stop).closeUnterminated stop)

/-- Closes what is still open at the end of the text. -/
def finish (d : Draft) : Draft := finishIn d.tree.size (Text.size d.tree.text) d

end Draft

end HybridMarkup
