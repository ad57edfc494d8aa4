/-
Answers for an editor, in the coordinates of the documents it shows.

The editor asks about hybrid documents; a host, the language engine behind it, only ever sees the
generated ones. Every question is carried over to the generated document that has a place for it,
and every answer is carried back. What has no place in the source is left out: a diagnostic or a
definition as a whole, a hover or a completion only as far as it names a place.

A place in a document is answered by line and column, which an offset inside a character does not
have. Answers therefore come in a form that can refuse (`Unplaceable`).
-/
import HybridMarkup.Workspace

set_option autoImplicit false

namespace HybridMarkup

/-! ## What a host answers -/

/-- A finding of the host in a generated document. -/
structure HostDiagnostic where
  span : Span
  severity : Severity
  message : String
deriving DecidableEq, Repr, Inhabited

/-- What the host shows about a place. -/
structure HostHover where
  span : Option Span
  contents : String
deriving DecidableEq, Repr, Inhabited

/-- What the host offers to insert, with the text that is to stand in the place of a span. -/
structure HostCompletion where
  label : String
  detail : Option String
  edit : Option (Span × String)
deriving DecidableEq, Repr, Inhabited

/-- A span of the file at a path. -/
structure FileSpan where
  path : Path
  span : Span
deriving DecidableEq, Repr, Inhabited

/-- An offset in the file at a path. -/
structure FilePosition where
  path : Path
  offset : Nat
deriving DecidableEq, Repr, Inhabited

/-- A language engine, which answers questions about generated documents in their coordinates. -/
structure Host (m : Type → Type) where
  diagnostics : Document → m (List HostDiagnostic)
  hover : Document → Nat → m (Option HostHover)
  definition : Document → Nat → m (List FileSpan)
  completions : Document → Nat → m (List HostCompletion)

/-- The host that knows no language. -/
def Host.silent {m : Type → Type} [Monad m] : Host m where
  diagnostics _ := pure []
  hover _ _ := pure none
  definition _ _ := pure []
  completions _ _ := pure []

/-! ## What the editor gets -/

/-- A span by lines and columns. -/
structure LineSpan where
  start : LineColumn
  stop : LineColumn
deriving DecidableEq, Repr, Inhabited

/-- How grave a finding is to the editor. -/
inductive EditorSeverity where
  | error
  | warning
  | hint
deriving DecidableEq, Repr, Inhabited

/-- How grave a finding is shown to be. One that is to be ignored is still a hint. -/
def Severity.shown : Severity → EditorSeverity
  | error => .error
  | warn => .warning
  | ignore => .hint

/-- A finding as it is shown. Only findings of this library have a name. -/
structure EditorDiagnostic where
  span : LineSpan
  severity : EditorSeverity
  name : Option String
  message : String
deriving DecidableEq, Repr, Inhabited

/-- The tool in whose name findings are shown. -/
def EditorDiagnostic.source : String := "weft"

/-- What is shown about a place. -/
structure EditorHover where
  contents : String
  span : Option LineSpan
deriving DecidableEq, Repr, Inhabited

/-- What is offered to insert. -/
structure EditorCompletion where
  label : String
  detail : Option String
  edit : Option (LineSpan × String)
deriving DecidableEq, Repr, Inhabited

/-- The lines and columns of a span of a text. -/
def Text.lineSpan (t : Text) (s : Span) : Except Unplaceable LineSpan := do
  let start ← t.lineColumn s.start
  let stop ← t.lineColumn s.stop
  return { start, stop }

namespace Workspace

/-- The offset of an editor's position. A column beyond the end of its line is taken back to that
end. -/
def filePosition? (w : Workspace) (path : Path) (line column : Nat) : Option FilePosition :=
  (w.document? path).bind fun document =>
    (Text.lineSpan? document.text line).map fun span =>
      { path, offset := span.start + min column span.length }

/-- The lines and columns of a span of a file. -/
def lineSpan? (w : Workspace) (s : FileSpan) : Except Unplaceable (Option LineSpan) :=
  match w.document? s.path with
  | none => .ok none
  | some document => (document.text.lineSpan s.span).map some

/-- The source file at a path together with its document. -/
def source? (w : Workspace) (path : Path) : Option (SourceFile × Document) :=
  (w.sourceFile? path).bind fun f => (w.document? path).map (f, ·)

/-- The generated document that has a place for a position, with that place, and the document
that the position is in. -/
def generatedAt? (w : Workspace) (p : FilePosition) : Option (VirtualCode × Nat × Document) :=
  (w.source? p.path).bind fun (f, document) =>
    (f.virtualCodeAt? p.offset).map fun (code, offset) => (code, offset, document)

/-- The findings of parsing and linting. -/
def ownDiagnostics (text : Text) (found : List Diagnostic) :
    Except Unplaceable (List EditorDiagnostic) :=
  found.mapM fun d =>
    (text.lineSpan d.span).map fun span =>
      { span, severity := d.severity.shown, name := some d.name, message := d.message }

/-- The findings of the host in one generated document that have a place in the source. -/
def mappedDiagnostics (text : Text) (code : VirtualCode) (found : List HostDiagnostic) :
    Except Unplaceable (List EditorDiagnostic) :=
  (found.filterMap fun d => (code.sourceMap.sourceSpan? d.span).map (d, ·)).mapM fun (d, span) =>
    (text.lineSpan span).map fun span =>
      { span, severity := d.severity.shown, name := none, message := d.message }

section
variable {m : Type → Type} [Monad m]

/-- The findings in a document: those of parsing and linting, then those of the host. -/
def diagnostics (w : Workspace) (host : Host m) (path : Path) :
    ExceptT Unplaceable m (List EditorDiagnostic) :=
  match w.source? path with
  | none => pure []
  | some (file, document) => do
    let own ← ExceptT.mk (pure (ownDiagnostics document.text file.diagnostics))
    let mapped ← file.codes.mapM fun code => do
      let found ← ExceptT.lift (host.diagnostics code.document)
      ExceptT.mk (pure (mappedDiagnostics document.text code found))
    return own ++ mapped.flatten

/-- What there is to show about a position. -/
def hover (w : Workspace) (host : Host m) (p : FilePosition) :
    ExceptT Unplaceable m (Option EditorHover) :=
  match w.generatedAt? p with
  | none => pure none
  | some (code, offset, document) => do
    match ← ExceptT.lift (host.hover code.document offset) with
    | none => return none
    | some hover =>
      match hover.span.bind code.sourceMap.sourceSpan? with
      | none => return some { contents := hover.contents, span := none }
      | some span =>
        let span ← ExceptT.mk (pure (document.text.lineSpan span))
        return some { contents := hover.contents, span := some span }

/-- The place of a definition in the documents of the editor. One in a generated document is the
place it was generated from, if it has one; any other stays as it is. -/
def definitionTarget? (w : Workspace) (target : FileSpan) : Option FileSpan :=
  match w.sourceForVirtual? target.path with
  | none => some target
  | some (owner, code) =>
    (code.sourceMap.sourceSpan? target.span).map fun span => { path := owner.path, span }

/-- Where what stands at a position is defined. -/
def definition (w : Workspace) (host : Host m) (p : FilePosition) : m (List FileSpan) :=
  match w.generatedAt? p with
  | none => pure []
  | some (code, offset, _) => do
    return (← host.definition code.document offset).filterMap w.definitionTarget?

/-- A completion of the host as it is offered. An edit that has no place in the source is left
out. -/
def mappedCompletion (text : Text) (code : VirtualCode) (c : HostCompletion) :
    Except Unplaceable EditorCompletion :=
  let edit := c.edit.bind fun (span, new) => (code.sourceMap.sourceSpan? span).map (·, new)
  match edit with
  | none => .ok { label := c.label, detail := c.detail, edit := none }
  | some (span, new) =>
    (text.lineSpan span).map fun span =>
      { label := c.label, detail := c.detail, edit := some (span, new) }

/-- What is offered to insert at a position. -/
def completions (w : Workspace) (host : Host m) (p : FilePosition) :
    ExceptT Unplaceable m (List EditorCompletion) :=
  match w.generatedAt? p with
  | none => pure []
  | some (code, offset, document) => do
    let offered ← ExceptT.lift (host.completions code.document offset)
    ExceptT.mk (pure (offered.mapM (mappedCompletion document.text code)))

end

end Workspace

end HybridMarkup
