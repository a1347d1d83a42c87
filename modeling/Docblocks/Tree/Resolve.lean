/-
# Docblocks.Tree.Resolve — from a path to a place in the tree.

A path is walked step by step from the root or the working directory.  A link on the way is replaced
by the steps of its target, at most `linkLimit` times in one walk; whether a link at the very end is
replaced too depends on what the path is for.  The walk ends at an entry that is there, or at a name
that is free in a directory that is there, or with the cause why there is neither.
-/
import Docblocks.Tree.Basic
import Docblocks.Tree.Cause
import Docblocks.Tree.Path

namespace Docblocks.Tree

/-- What a path is for. -/
inductive Aim
  /-- For what it leads to, over a link at the end as well. -/
  | target
  /-- For the entry itself, a link at the end included. -/
  | entry
  /-- For a file that may have to be made: as `target`, but the path must not end in a slash. -/
  | file
  /-- For a directory to be made: as `entry`, and a slash at the end means nothing. -/
  | directory
  deriving DecidableEq, Repr

/-- Where a path ends. -/
inductive Place
  /-- At an entry, or at the root. -/
  | found (l : Location)
  /-- In the directory `dir`, at a name that it does not hold. -/
  | vacant (dir : Location) (name : Text)
  deriving DecidableEq, Repr

/-- How many links one walk follows. -/
def linkLimit : Nat := 40

/-- How many bytes a name may have. -/
def nameLimit : Nat := 255

/-- How many bytes a path may not reach. -/
def pathLimit : Nat := 4096

/-- Whether nothing is left to do after a name: no step, or for a directory to be made a slash. -/
def isLast (aim : Aim) (rest : List Path.Step) : Bool :=
  rest = [] || (aim = .directory && rest = [.slash])

/-- Where the steps of a path start: at the root, or at `l`. -/
def base (l : Location) (path : Text) : Location :=
  if Path.isAbsolute path then [] else l

/-- Walks the steps from a directory.  `onward` continues the walk once a link has been replaced by
its target. -/
def resolveWith (t : Tree) (aim : Aim)
    (onward : Location → List Path.Step → Except Cause Place) :
    Location → List Path.Step → Except Cause Place
  | l, [] => .ok (.found l)
  | l, .here :: rest => resolveWith t aim onward l rest
  | l, .slash :: rest => resolveWith t aim onward l rest
  | l, .up :: rest => resolveWith t aim onward l.tail rest
  | l, .name n :: rest =>
    if aim = .file ∧ rest = [.slash] then .error .isDirectory
    else if nameLimit < Text.Utf8.byteLength n then .error .nameTooLong
    else
      match t.get? (n :: l) with
      | none => if isLast aim rest then .ok (.vacant l n) else .error .noEntry
      | some .dir => resolveWith t aim onward (n :: l) rest
      | some (.link text) =>
        if isLast aim rest ∧ (aim = .entry ∨ aim = .directory) then .ok (.found (n :: l))
        else onward (base l text) (Path.steps text ++ rest)
      | some (.file _) => if isLast aim rest then .ok (.found (n :: l)) else .error .notDirectory
      | some .device => if isLast aim rest then .ok (.found (n :: l)) else .error .notDirectory

/-- Walks the steps from a directory, over as many links as the number says. -/
def resolve (t : Tree) (aim : Aim) : Nat → Location → List Path.Step → Except Cause Place
  | 0 => t.resolveWith aim fun _ _ => .error .tooManyLinks
  | links + 1 => t.resolveWith aim (t.resolve aim links)

/-- The place that a path names. -/
def locate (t : Tree) (aim : Aim) (path : Text) : Except Cause Place :=
  if '\x00' ∈ path then .error .nul
  else if path = [] then .error .noEntry
  else if pathLimit ≤ Text.Utf8.byteLength path then .error .nameTooLong
  else t.resolve aim linkLimit (base t.cwd path) (Path.steps path)

end Docblocks.Tree
