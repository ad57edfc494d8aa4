/-
Versioned documents, and the store that keeps them in memory over a disk.

A store is anything that reads, writes and removes documents; what is built on stores is built on
those three operations (`FileStore`). `Overlay` is the store of an editor. What is written to it
stays in memory, under the normal form of its path, and hides what the disk has there. Writing the
text that a document already has changes nothing, and in particular not its version, so a version
moves exactly when a text does. Documents that are only on the disk have version 0 and are read
afresh each time.
-/
import HybridMarkup.Disk

set_option autoImplicit false

namespace HybridMarkup

/-- One version of a text under a path. Versions are counted without a bound here; `versionLimit` is
where the counter of an editor ends. -/
structure Document where
  path : Path
  version : Nat
  text : Text
deriving DecidableEq, Repr, Inhabited

/-- The least version that a counter of 32 bits with a sign has no room for: two to the power of
31. -/
def Document.versionLimit : Nat := 2147483648

/-- Why a document was not stored. -/
inductive StoreError where
  | relativePath (path : Path)
deriving DecidableEq, Repr

/-- The reason in words. -/
def StoreError.message : StoreError → Text
  | relativePath path => "virtual paths must be absolute: ".toList ++ path.spelling

/-- A place where documents are kept. -/
class FileStore (σ : Type) where
  read? : σ → Path → Option Document
  write : σ → Path → Text → Except StoreError (Document × σ)
  /-- Removes a document, and tells whether there was one. -/
  remove : σ → Path → Bool × σ

/-- Documents in memory over a disk. No two of them have the same path, and all paths are in
normal form. -/
structure Overlay where
  disk : Disk := {}
  documents : List Document := []
deriving DecidableEq, Repr, Inhabited

namespace Overlay

/-- The document in memory at a path in normal form. -/
def held? (o : Overlay) (path : Path) : Option Document :=
  o.documents.find? fun d => d.path == path

/-- Whether there is a document in memory at a path. -/
def contains (o : Overlay) (path : Path) : Bool := (o.held? path.normalize).isSome

/-- The paths of the documents in memory, in order. -/
def paths (o : Overlay) : List Path := Path.sorted (o.documents.map Document.path)

/-- The document at a path: the one in memory, or else what the disk has there. -/
def read? (o : Overlay) (path : Path) : Option Document :=
  let path := path.normalize
  match o.held? path with
  | some d => some d
  | none => (o.disk.read? path).map fun text => { path, version := 0, text }

/-- The overlay without the document at a path in normal form. -/
def drop (o : Overlay) (path : Path) : Overlay :=
  { o with documents := o.documents.filter fun d => d.path != path }

/-- The overlay with a document in the place of the one at its path. -/
def put (o : Overlay) (d : Document) : Overlay :=
  { o with documents := d :: (o.drop d.path).documents }

/-- Stores a text at an absolute path. The first text at a path gets version 1. -/
def write (o : Overlay) (path : Path) (text : Text) : Except StoreError (Document × Overlay) :=
  if path.isAbsolute then
    let path := path.normalize
    match o.held? path with
    | some d =>
      -- an unchanged text keeps its version, so that nothing is derived from it anew
      if d.text = text then .ok (d, o)
      else
        let d := { path, version := d.version + 1, text }
        .ok (d, o.put d)
    | none =>
      let d := { path, version := 1, text }
      .ok (d, o.put d)
  else .error (.relativePath path)

/-- Removes the document in memory at a path. -/
def remove (o : Overlay) (path : Path) : Bool × Overlay :=
  (o.contains path, o.drop path.normalize)

instance : FileStore Overlay where
  read? := read?
  write := write
  remove := remove

end Overlay

/-- An overlay that turns away the writes to some paths, as they are spelled. -/
structure GuardedOverlay where
  overlay : Overlay := {}
  refuses : Path → Bool := fun _ => false

namespace GuardedOverlay

/-- Stores a text unless the path is refused. -/
def write (g : GuardedOverlay) (path : Path) (text : Text) :
    Except StoreError (Document × GuardedOverlay) :=
  if g.refuses path then .error (.relativePath path)
  else (g.overlay.write path text).map fun (d, overlay) => (d, { g with overlay })

/-- Removes the document in memory at a path. -/
def remove (g : GuardedOverlay) (path : Path) : Bool × GuardedOverlay :=
  let (removed, overlay) := g.overlay.remove path
  (removed, { g with overlay })

instance : FileStore GuardedOverlay where
  read? g := g.overlay.read?
  write := write
  remove := remove

end GuardedOverlay

end HybridMarkup
