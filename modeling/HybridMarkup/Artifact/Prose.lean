/-
The artifacts of a prose document.

The document is dealt out over several texts: each fenced block of the host language becomes a
file of its own, imports, elements and expressions go to one script that also imports the blocks,
and what is left is prose. Every authored character that ends up in one of them is tied to its
origin by an offset mapping. An Mdx document has an index besides, which announces the script to
those who import the document.
-/
import HybridMarkup.Artifact
import HybridMarkup.Tree

set_option autoImplicit false

namespace HybridMarkup

namespace ProseArtifacts

/-- The texts in the making. -/
structure Output where
  script : CodeGen := {}
  prose : CodeGen := {}
  /-- The blocks so far, each with its file name. -/
  blocks : List (Text × CodeGen) := []
deriving DecidableEq, Repr, Inhabited

/-- What makes a file a module even if it exports nothing. -/
def emptyExport : Text := "export \x7b\x7d;\n".toList

/-- What opens every script. -/
def scriptOpening : Text := "import React from 'react';\n\n".toList

/-- What ends a statement of the script. -/
def statementEnd : Text := ";\n\n".toList

/-- The text of the index. -/
def indexText (scriptName : Text) : Text :=
  "import \x7b FC \x7d from 'react';\n\n".toList ++
    "declare const MDXComponent: FC<Record<string, any>>;\n".toList ++
    "export default MDXComponent;\n\nexport * from './".toList ++ moduleName scriptName ++
    "';\n".toList

/-- An import or an element, which is a statement of the script. -/
def statement (out : Output) (text : Text) (span : Span) : Output :=
  { out with script := (out.script.addCode text .offset span).addText statementEnd }

/-- An expression in braces. Its code corresponds place by place, and the whole with its braces
end to end. -/
def expression (out : Output) (text : Text) (textSpan span : Span) : Output :=
  let start := out.script.size
  let script := ((out.script.addText ['{']).addCode text .offset textSpan).addText ['}']
  let script := script.addMapping
    { mode := .totally, source := span, mapped := ⟨start, script.size⟩ }
  { out with script := script.addText statementEnd }

/-- A block of the host language: a file of its own, imported by the script. The opening line of
the block stands for the import. -/
def hostBlock (fileName : Text) (out : Output) (block : CodeBlock) (start : Nat)
    (language : HostLanguage) : Output :=
  let name := fileName ++ blockNameEnd out.blocks.length language
  let code := (CodeGen.addCode {} block.text .offset block.contentSpan).addText
    ("\n\n;".toList ++ emptyExport)
  let statement := ";\nimport './".toList ++ moduleName name ++ "';\n".toList
  let script := (out.script.addText statement).addMapping
    { mode := .expand
      source := ⟨start, block.openerEnd⟩
      mapped := out.script.nextSpan statement }
  { out with script, blocks := out.blocks ++ [(name, code)] }

/-- A block of another language, which stays in the prose. -/
def foreignBlock (out : Output) (block : CodeBlock) : Output :=
  let fence : Text := ['\x60', '\x60', '\x60']
  let opening := fence ++ block.lang.getD [] ++ ['\n']
  let closing := '\n' :: fence ++ ['\n', '\n']
  { out with
    prose := ((out.prose.addText opening).addCode block.text .offset block.contentSpan).addText
      closing }

/-- Deals out a node and what is below it. A tree without cycles is not deeper than its number of
nodes. -/
def emit (t : Tree) (fileName : Text) : Nat → Output → NodeId → Output
  | 0, out, _ => out
  | fuel + 1, out, id =>
    match t.data id with
    | .paragraph =>
      let out := (t.children id).foldl (emit t fileName fuel) out
      { out with prose := out.prose.addText ['\n', '\n'] }
    | .text _ => { out with prose := out.prose.addCode (t.nodeText id) .offset (t.span id) }
    | .importStatement _ => statement out (t.nodeText id) (t.span id)
    | .jsxStatement _ => statement out (t.nodeText id) (t.span id)
    | .expressionStatement text textSpan _ => expression out text textSpan (t.span id)
    | .codeBlock block =>
      match block.lang.bind HostLanguage.ofName? with
      | some language => hostBlock fileName out block (t.span id).start language
      | none => foreignBlock out block
    | _ => out

/-- Deals out the whole document. -/
def output (t : Tree) (fileName : Text) : Output :=
  let out : Output := { script := CodeGen.addText {} scriptOpening }
  let out := (t.children Tree.root).foldl (emit t fileName t.size) out
  { out with script := out.script.addText emptyExport }

/-- The artifacts of the blocks, numbered from `index` on. -/
def blockArtifacts : Nat → List (Text × CodeGen) → List Artifact
  | _, [] => []
  | index, (name, code) :: blocks =>
    code.artifact (.block index) name :: blockArtifacts (index + 1) blocks

/-- The artifacts of a prose document: the blocks, the script, the prose, and in Mdx the
index. -/
def ofTree (t : Tree) (fileName : Text) : List Artifact :=
  let out := output t fileName
  let scriptName := fileName ++ proseScriptSuffix
  let index : Artifact :=
    { kind := .index
      fileName := fileName ++ indexSuffix
      text := indexText scriptName
      mappings := [] }
  blockArtifacts 0 out.blocks ++
    [out.script.artifact .script scriptName, out.prose.artifact .prose (fileName ++ proseSuffix)] ++
    if t.dialect = .mdx then [index] else []

end ProseArtifacts

end HybridMarkup
