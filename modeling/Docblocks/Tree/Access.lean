/-
# Docblocks.Tree.Access — asking about paths, and making files and directories.

The questions never fail: a path that leads nowhere is simply no file and no directory.  The changes
either say why they failed or give the new tree.  Making a directory with all its missing parents is
the exception: it gives a tree in any case, because the parents made before a failure stay.
-/
import Docblocks.Text.Order
import Docblocks.Tree.Resolve

namespace Docblocks.Tree

/-! ## Questions -/

/-- The entry at the end of a path, or why there is none. -/
def look (t : Tree) (aim : Aim) (path : Text) : Except Cause Entry :=
  match t.locate aim path with
  | .error cause => .error cause
  | .ok (.vacant _ _) => .error .noEntry
  | .ok (.found l) =>
    match t.get? l with
    | some e => .ok e
    | none => .error .noEntry

/-- What a path leads to, over links. -/
def entry? (t : Tree) (path : Text) : Option Entry :=
  (t.look .target path).toOption

/-- What a path names, a link at its end included. -/
def entryItself? (t : Tree) (path : Text) : Option Entry :=
  (t.look .entry path).toOption

/-- Whether a path leads to anything. -/
def leads (t : Tree) (path : Text) : Bool :=
  (t.entry? path).isSome

/-- Whether a path leads to a regular file. -/
def isFile (t : Tree) (path : Text) : Bool :=
  match t.entry? path with
  | some (.file _) => true
  | _ => false

/-- Whether a path leads to a directory. -/
def isDir (t : Tree) (path : Text) : Bool :=
  t.entry? path = some .dir

/-- The bytes of the file that a path leads to.  The device has none to give. -/
def read (t : Tree) (path : Text) : Except Cause (List UInt8) :=
  match t.look .target path with
  | .error cause => .error cause
  | .ok (.file content) => .ok content
  | .ok .dir => .error .isDirectory
  | .ok _ => .ok []

/-- The names in the directory that a path leads to, ascending, with their entries. -/
def list (t : Tree) (path : Text) : Except Cause (List (Text × Entry)) :=
  match t.locate .target path with
  | .error cause => .error cause
  | .ok (.vacant _ _) => .error .noEntry
  | .ok (.found l) =>
    if t.hasDir l then .ok ((t.children l).mergeSort fun a b => Text.le a.1 b.1)
    else .error .notDirectory

/-! ## Changes -/

/-- Makes one directory. -/
def makeDir (t : Tree) (path : Text) : Except Cause Tree :=
  match t.locate .directory path with
  | .error cause => .error cause
  | .ok (.found _) => .error .taken
  | .ok (.vacant l n) => .ok (t.insert l n .dir)

/-- Makes a directory; where there is one already, nothing needs to be done. -/
def ensureDir (t : Tree) (path : Text) : Except Cause Tree :=
  match t.makeDir path with
  | .ok t' => .ok t'
  | .error cause => if t.isDir path then .ok t else .error cause

/-- Makes a directory and, where it has no place yet, its parents first.  The number bounds how many
parents are tried; each is shorter than the path below it. -/
def makeDirsWithin : Nat → Tree → Text → Except Cause Unit × Tree
  | 0, t, _ => (.ok (), t)
  | fuel + 1, t, path =>
    if path = [] then (.ok (), t)
    else
      match t.makeDir path with
      | .ok t' => (.ok (), t')
      | .error .noEntry =>
        match makeDirsWithin fuel t ((Path.parent? path).getD []) with
        | (.error cause, t') => (.error cause, t')
        | (.ok (), t') =>
          match t'.ensureDir path with
          | .ok t'' => (.ok (), t'')
          | .error cause => (.error cause, t')
      | .error cause => if t.isDir path then (.ok (), t) else (.error cause, t)

/-- Makes a directory with all its missing parents. -/
def makeDirs (t : Tree) (path : Text) : Except Cause Unit × Tree :=
  makeDirsWithin path.length t path

/-- Adds bytes at the end of the file that a path leads to, which is made when it is not there.  The
device takes no byte. -/
def append (t : Tree) (path : Text) (bytes : List UInt8) : Except Cause Tree :=
  match t.locate .file path with
  | .error cause => .error cause
  | .ok (.vacant l n) => .ok (t.insert l n (.file bytes))
  | .ok (.found l) =>
    match t.get? l with
    | some (.file content) => .ok (t.setContent l (content ++ bytes))
    | some .device => if bytes = [] then .ok t else .error .noSpace
    | _ => .error .isDirectory

end Docblocks.Tree
