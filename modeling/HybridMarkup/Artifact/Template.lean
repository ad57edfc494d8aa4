/-
The artifact of a template: one script.

The bodies of the script elements come first, as they are. Behind them every other piece of code
in the template, whether it stands in a mustache or in a directive, becomes a statement. The name
of a directive stands for the whole statement made of its value.
-/
import HybridMarkup.Artifact
import HybridMarkup.RawElement
import HybridMarkup.Tree

set_option autoImplicit false

namespace HybridMarkup

namespace TemplateArtifact

/-- What precedes a piece of code in its statement. -/
def opening : Text := ";(".toList

/-- What follows a piece of code in its statement. -/
def closing : Text := ");\n".toList

/-- The script in the making, and whether it is in the typed language. -/
structure Output where
  script : CodeGen := {}
  isTyped : Bool := false
deriving DecidableEq, Repr, Inhabited

/-- A piece of code as a statement. -/
def embed (script : CodeGen) (code : Text) (source : Span) : CodeGen :=
  ((script.addText opening).addCode code .offset source).addText closing

/-- The span of the name of a directive: what its source has in front of the equals sign. -/
def nameSpan (t : Tree) (id : NodeId) : Span :=
  let source := t.nodeText id
  let name := ((Text.cutAt? '=' source).map Prod.fst).getD source
  Span.ofLength (t.span id).start (Text.size name)

/-- The value of a directive as a statement, to which its name is tied. -/
def embedDirective (t : Tree) (script : CodeGen) (id : NodeId) (d : Directive) : CodeGen :=
  match d.value, d.valueSpan with
  | some value, some valueSpan =>
    let start := script.size
    let script := embed script value valueSpan
    script.addMapping
      { mode := .expand, source := nameSpan t id, mapped := ⟨start, script.size⟩ }
  | _, _ => script

/-- Takes in a child of a script element: its body, or the announcement of its language. -/
def scriptChild (t : Tree) (out : Output) (child : NodeId) : Output :=
  match t.data child with
  | .attr a =>
    if a.name = "lang".toList ∧ a.value = some "ts".toList then { out with isTyped := true }
    else out
  | .rawText text =>
    { out with script := (out.script.addCode text .offset (t.span child)).addText ['\n'] }
  | _ => out

/-- Takes in a node if it is a script element. -/
def scriptElement (t : Tree) (out : Output) (id : NodeId) : Output :=
  match t.data id with
  | .element e =>
    if RawElement.ofName? e.tag = some .script then (t.children id).foldl (scriptChild t) out
    else out
  | _ => out

/-- Takes in the code at a node and below it. A tree without cycles is not deeper than its number
of nodes. -/
def emit (t : Tree) : Nat → CodeGen → NodeId → CodeGen
  | 0, script, _ => script
  | fuel + 1, script, id =>
    match t.data id with
    | .element e =>
      if (RawElement.ofName? e.tag).isSome then script
      else (t.children id).foldl (emit t fuel) script
    | .attr _ => (t.children id).foldl (emit t fuel) script
    | .mustache text textSpan => embed script text textSpan
    | .directive d => embedDirective t script id d
    | _ => script

/-- The artifact of a template. -/
def ofTree (t : Tree) (fileName : Text) : Artifact :=
  let out := t.preorder.foldl (scriptElement t) {}
  let script := (t.children Tree.root).foldl (emit t t.size) out.script
  let extension := if out.isTyped then HostLanguage.ts.extension else HostLanguage.js.extension
  script.artifact .script (fileName ++ templateScriptSuffix ++ '.' :: extension)

end TemplateArtifact

end HybridMarkup
