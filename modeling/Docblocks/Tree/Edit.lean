/-
# Docblocks.Tree.Edit — laying out a tree by hand.

Whole-tree operations for preparing and inspecting a tree: writing a file over what is there, placing
a link, removing, and listing all that is below a directory.
-/
import Docblocks.Tree.Access

namespace Docblocks.Tree

/-- Makes the parents of a path, as far as that goes. -/
def withParents (t : Tree) (path : Text) : Tree :=
  (t.makeDirs ((Path.parent? path).getD [])).2

/-- Removes what a path names: a file, a link but not its target, or a directory with all in it. -/
def remove (t : Tree) (path : Text) : Tree :=
  match t.locate .entry path with
  | .ok (.found l) => t.erase l
  | _ => t

/-- Makes a path lead to a file with the given bytes, whatever the file held before. -/
def putFile (t : Tree) (path : Text) (bytes : List UInt8) : Tree :=
  let t := t.withParents path
  match t.locate .file path with
  | .ok (.vacant l n) => t.insert l n (.file bytes)
  | .ok (.found l) => t.setContent l bytes
  | .error _ => t

/-- Makes a path a directory. -/
def putDir (t : Tree) (path : Text) : Tree :=
  (t.makeDirs path).2

/-- Makes a path a link, in place of what it named. -/
def putLink (t : Tree) (path target : Text) : Tree :=
  let t := (t.withParents path).remove path
  match t.locate .entry path with
  | .ok (.vacant l n) => t.insert l n (.link target)
  | _ => t

/-- The names, from the outside in, by which a location below `l` is reached from there. -/
def namesBelow (l k : Location) : List Text :=
  (k.take (k.length - l.length)).reverse

/-- The path of names below a directory; the empty path of a directory is left out. -/
def pathBelow (dir : Text) (names : List Text) : Text :=
  Path.glue (if dir = [] then names else dir :: names)

/-- Everything below the directory that a path leads to, links not followed, by ascending paths; the
empty path stands for the working directory. -/
def listing (t : Tree) (dir : Text) : List (Text × Entry) :=
  match if dir = [] then .ok (.found t.cwd) else t.locate .target dir with
  | .ok (.found l) =>
    if t.hasDir l then
      let below := t.entries.filter fun p => l.isSuffixOf p.1 && p.1 != l
      (below.map fun p => (pathBelow dir (namesBelow l p.1), p.2)).mergeSort fun a b => Text.le a.1 b.1
    else []
  | _ => []

end Docblocks.Tree
