/-
A hybrid document together with everything derived from it.

A source file looks at its document in a store, and when the document has another version than the
one it last parsed, it parses the document, writes the generated documents into the store and
removes those that are no longer generated. A write can fail. Then the file keeps what it had, and
since it has not taken note of the new version either, the next update tries again.
-/
import HybridMarkup.Artifact.All
import HybridMarkup.Parse
import HybridMarkup.Store

set_option autoImplicit false

namespace HybridMarkup

/-- A generated document, and how it corresponds to its source. -/
structure VirtualCode where
  kind : ArtifactKind
  document : Document
  /-- The path of the source. -/
  sourcePath : Path
  /-- The path of the generated document as it was made up, which may differ from the document's
  path in spelling. -/
  mappedPath : Path
  sourceMap : SourceMap
deriving DecidableEq, Repr, Inhabited

/-- The path of the generated document. -/
def VirtualCode.path (c : VirtualCode) : Path := c.document.path

/-- A hybrid document and what its last parsed version gave. -/
structure SourceFile where
  path : Path
  options : ParseOptions
  parsedVersion : Option Nat := none
  /-- Whether the last update parsed anything. -/
  rebuilt : Bool := false
  parse : Option Parse := none
  codes : List VirtualCode := []
deriving DecidableEq, Repr, Inhabited

namespace SourceFile

/-- What was found in the last parsed version. -/
def diagnostics (f : SourceFile) : List Diagnostic :=
  (f.parse.map Parse.diagnostics).getD []

/-- The generated document at a path. -/
def virtualCode? (f : SourceFile) (path : Path) : Option VirtualCode :=
  f.codes.find? fun c => c.path == path.normalize

/-- The first generated document that has a place for a source offset, with that place. -/
def virtualCodeAt? (f : SourceFile) (offset : Nat) : Option (VirtualCode × Nat) :=
  f.codes.findSome? fun c => (c.sourceMap.mappedOffset? offset).map (c, ·)

/-- The source offset of a place in the generated document at a path. -/
def sourcePosition? (f : SourceFile) (path : Path) (offset : Nat) : Option Nat :=
  (f.virtualCode? path).bind fun c => c.sourceMap.sourceOffset? offset

section
variable {σ : Type} [FileStore σ]

/-- Writes artifacts of the document at `source`, one after another. After a failure the store
holds those that were written before it. -/
def writeArtifacts (source : Path) : List Artifact → σ → Except StoreError (List VirtualCode) × σ
  | [], store => (.ok [], store)
  | a :: artifacts, store =>
    let path : Path := ⟨a.fileName⟩
    match FileStore.write store path a.text with
    | .error e => (.error e, store)
    | .ok (document, store) =>
      let code : VirtualCode :=
        { kind := a.kind
          document
          sourcePath := source
          mappedPath := path
          sourceMap := ⟨a.mappings⟩ }
      match writeArtifacts source artifacts store with
      | (.ok codes, store) => (.ok (code :: codes), store)
      | (.error e, store) => (.error e, store)

/-- Removes the documents of the old codes that are not among the new ones. -/
def removeStale (old new : List VirtualCode) (store : σ) : σ :=
  (old.filter fun c => !(new.map VirtualCode.path).contains c.path).foldl
    (fun store c => (FileStore.remove store c.path).2) store

/-- Parses a document, and brings the generated documents in the store up to date with it. -/
def rebuild (f : SourceFile) (document : Document) (store : σ) :
    Except StoreError Bool × SourceFile × σ :=
  let parse := Parse.ofText f.options document.text
  match writeArtifacts f.path (parse.tree.artifacts f.path.spelling) store with
  -- the version is not taken note of, so the next update tries again
  | (.error e, store) => (.error e, f, store)
  | (.ok codes, store) =>
    (.ok true,
      { f with
        parsedVersion := some document.version
        rebuilt := true
        parse := some parse
        codes },
      removeStale f.codes codes store)

/-- Rebuilds if the stored document has another version than the one last parsed, and tells
whether it did. -/
def update (f : SourceFile) (store : σ) : Except StoreError Bool × SourceFile × σ :=
  let f := { f with rebuilt := false }
  match FileStore.read? store f.path with
  | none => (.ok false, f, store)
  | some document =>
    if f.parsedVersion = some document.version then (.ok false, f, store)
    else f.rebuild document store

end

end SourceFile

end HybridMarkup
