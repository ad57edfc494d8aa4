/-
The workspace of an editor: open documents, and the files generated from those that are hybrid.

Everything goes by the normal form of paths. Opening a document and changing it are the same:
the text is stored, and if the path belongs to a known dialect its source file is brought up to
date. Closing a document takes back all that opening it has brought about.
-/
import HybridMarkup.Config
import HybridMarkup.SourceFile

set_option autoImplicit false

namespace HybridMarkup

/-- Open documents and their source files. No two source files have the same path. -/
structure Workspace where
  config : Config := {}
  store : Overlay := {}
  files : List SourceFile := []
deriving DecidableEq, Repr, Inhabited

namespace Workspace

/-- The document at a path. -/
def document? (w : Workspace) (path : Path) : Option Document := w.store.read? path

/-- The source file at a path in normal form. -/
def held? (w : Workspace) (path : Path) : Option SourceFile :=
  w.files.find? fun f => f.path == path

/-- The source file at a path. -/
def sourceFile? (w : Workspace) (path : Path) : Option SourceFile := w.held? path.normalize

/-- The workspace without the source file at a path in normal form. -/
def dropFile (w : Workspace) (path : Path) : Workspace :=
  { w with files := w.files.filter fun f => f.path != path }

/-- The workspace with a source file in the place of the one at its path. -/
def putFile (w : Workspace) (f : SourceFile) : Workspace :=
  { w with files := f :: (w.dropFile f.path).files }

/-- Parses the document at a path if it has changed since it was last parsed. A document of no
known dialect has no source file. -/
def update (w : Workspace) (path : Path) : Except StoreError (Option SourceFile) × Workspace :=
  let path := path.normalize
  match w.config.parseOptions path with
  | none => (.ok none, w)
  | some options =>
    let file := (w.held? path).getD { path, options }
    match file.update w.store with
    | (.ok _, file, store) => (.ok (some file), { w with store }.putFile file)
    | (.error e, file, store) => (.error e, { w with store }.putFile file)

/-- Stores a text at a path and brings what is derived from it up to date. -/
def openDocument (w : Workspace) (path : Path) (text : Text) :
    Except StoreError (Option SourceFile) × Workspace :=
  let path := path.normalize
  match w.store.write path text with
  | .error e => (.error e, w)
  | .ok (_, store) => { w with store }.update path

/-- Replaces the text at a path. -/
def change (w : Workspace) (path : Path) (text : Text) :
    Except StoreError (Option SourceFile) × Workspace :=
  w.openDocument path text

/-- Removes documents from the store. -/
def removeAll (store : Overlay) (paths : List Path) : Overlay :=
  paths.foldl (fun store path => (store.remove path).2) store

/-- Forgets the document at a path and what was generated from it. Tells whether the document was
open. -/
def close (w : Workspace) (path : Path) : Bool × Workspace :=
  let path := path.normalize
  let generated := ((w.held? path).map SourceFile.codes).getD []
  -- the document goes last: the answer is about it, not about what was generated from it
  let (wasOpen, store) := (removeAll w.store (generated.map VirtualCode.path)).remove path
  (wasOpen, { w with store }.dropFile path)

/-- The source file and the code that a generated path belongs to. -/
def sourceForVirtual? (w : Workspace) (path : Path) : Option (SourceFile × VirtualCode) :=
  (VirtualFile.ofPath? path).bind fun v =>
    (w.sourceFile? v.source).bind fun f =>
      (f.virtualCode? path).map (f, ·)

end Workspace

end HybridMarkup
