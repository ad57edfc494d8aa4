/-
Artifacts: the documents generated from a hybrid one, and the names they go by.

The name of an artifact is the name of its document with a suffix that says what it is. A name
with such a suffix can be taken apart again (`VirtualFile.ofPath?`), and because every suffix
begins behind the name it is added to, the name in front of it may look like anything, even like
the name of another artifact. Only a name with a line feed in it is never taken for a generated
one.
-/
import HybridMarkup.CodeGen
import HybridMarkup.Path

set_option autoImplicit false

namespace HybridMarkup

/-- What a generated document is. -/
inductive ArtifactKind where
  /-- A fenced block of the host language, by its place among them. -/
  | block (index : Nat)
  | script
  | prose
  | index
deriving DecidableEq, Repr, Inhabited

/-- A generated document. -/
structure Artifact where
  kind : ArtifactKind
  fileName : Text
  text : Text
  mappings : List Mapping
deriving DecidableEq, Repr, Inhabited

/-- The artifact of a finished text. -/
def CodeGen.artifact (g : CodeGen) (kind : ArtifactKind) (fileName : Text) : Artifact :=
  { kind, fileName, text := g.text, mappings := g.mappings }

/-! ## Names -/

/-- The extensions of the files that hold one fenced block. -/
inductive HostLanguage where
  | js
  | jsx
  | ts
  | tsx
deriving DecidableEq, Repr

namespace HostLanguage

/-- The file extension. -/
def extension : HostLanguage → Text
  | js => "js".toList
  | jsx => "jsx".toList
  | ts => "ts".toList
  | tsx => "tsx".toList

/-- The names under which a fenced block may announce the language, in lower case. -/
def names : HostLanguage → List Text
  | js => ["js".toList, "javascript".toList, "javascriptreact".toList]
  | jsx => ["jsx".toList]
  | ts => ["ts".toList, "typescript".toList, "typescriptreact".toList]
  | tsx => ["tsx".toList]

/-- All of them. -/
def all : List HostLanguage := [js, jsx, ts, tsx]

/-- The language a fenced block announces, if it is one of the host's. -/
def ofName? (name : Text) : Option HostLanguage :=
  all.find? fun language => language.names.contains (name.map Char.toLower)

end HostLanguage

/-- What stands between the number of a block and its extension. -/
def blockSuffix : Text := "._md_cb".toList

/-- The suffix of the script of a prose document. -/
def proseScriptSuffix : Text := "._mdx.jsx".toList

/-- The suffix of the prose that is left without the code. -/
def proseSuffix : Text := "._mdx.md".toList

/-- The suffix of the index. -/
def indexSuffix : Text := "._index.ts".toList

/-- The suffix of the script of a template, without its extension. -/
def templateScriptSuffix : Text := "._vue".toList

/-- What follows the document's name in the name of one of its blocks. -/
def blockNameEnd (index : Nat) (language : HostLanguage) : Text :=
  '.' :: Text.ofNat index ++ blockSuffix ++ '.' :: language.extension

/-- The file name in which a module is imported: without its directory, and without the last
extension. -/
def moduleName (fileName : Text) : Text :=
  let name := (Path.fileName? ⟨fileName⟩).getD fileName
  ((Text.cutAtLast? '.' name).map Prod.fst).getD name

/-- A generated file, by what it is and by the document it was generated from. -/
structure VirtualFile where
  kind : ArtifactKind
  source : Path
deriving DecidableEq, Repr

namespace VirtualFile

/-- The greatest number a block may carry. -/
def maxIndex : Nat := 0xFFFFFFFFFFFFFFFF

/-- The value of decimal digits, most significant first, continuing from `value`. -/
def digitsValue : Nat → Text → Nat
  | value, [] => value
  | value, c :: t => digitsValue (10 * value + (c.toNat - '0'.toNat)) t

/-- The kind of a block's file, from what follows the document's name. -/
def blockKind? (ending : Text) : Option ArtifactKind :=
  match ending with
  | '.' :: t =>
    let digits := t.takeWhile Char.isDigit
    let index := digitsValue 0 digits
    let endings := HostLanguage.all.map fun language => blockSuffix ++ '.' :: language.extension
    if digits ≠ [] ∧ endings.contains (t.dropWhile Char.isDigit) ∧ index ≤ maxIndex then
      some (.block index)
    else none
  | _ => none

/-- The kind of a generated file, from what follows the document's name. -/
def ofEnding? (ending : Text) : Option ArtifactKind :=
  if ending = proseScriptSuffix then some .script
  else if ending = proseSuffix then some .prose
  else if ending = indexSuffix then some .index
  else if ending = templateScriptSuffix ++ ".js".toList then some .script
  else if ending = templateScriptSuffix ++ ".ts".toList then some .script
  else blockKind? ending

/-- Takes a name apart at the first place, behind its first character, where the rest is the
ending of a generated file. `name` holds the characters read so far, the last one first. -/
def splitName? : Text → Text → Option (ArtifactKind × Text)
  | _, [] => none
  | name, c :: t =>
    if c = '\n' then none
    else
      match ofEnding? t with
      | some kind => some (kind, (c :: name).reverse)
      | none => splitName? (c :: name) t

/-- Recognises a generated file by its name. -/
def ofPath? (p : Path) : Option VirtualFile :=
  match p.fileName?.bind (splitName? []) with
  | some (kind, name) => some { kind, source := p.withFileName name }
  | none => none

end VirtualFile

end HybridMarkup
