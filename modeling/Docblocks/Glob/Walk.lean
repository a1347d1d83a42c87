/-
# Docblocks.Glob.Walk — the paths that a pattern matches.

The walk goes down from the root or the working directory, one component at a time.  A component
without special tokens is joined to the path and looked up; any other is tried on the names in the
directory, in ascending order.  Results come depth first, a directory before what is in it, and each is
the path as it was built.  Whether a path is a directory is settled when the path is met: for a name
in a directory by its entry, which also tells for a path that is too long to be looked up.
-/
import Docblocks.Glob.Pattern
import Docblocks.Tree.Access

namespace Docblocks.Glob

/-- A path that the walk has come to, and whether it is a directory. -/
structure Spot where
  path : Text
  isDir : Bool
  deriving DecidableEq, Repr

/-- The spot of a path that is looked up. -/
def Spot.ofPath (t : Tree) (path : Text) : Spot :=
  ⟨path, t.isDir path⟩

/-- The spot of an entry of a directory; only a link is looked up. -/
def Spot.ofEntry (t : Tree) (path : Text) : Entry → Spot
  | .dir => ⟨path, true⟩
  | .link _ => ofPath t path
  | _ => ⟨path, false⟩

/-- A result of a walk: a path, or a directory that could not be read. -/
inductive Find
  | path (path : Text)
  | unreadable (refusal : Refusal)
  deriving DecidableEq, Repr

/-- The path of a name in a directory; in the working directory it is the name alone. -/
def child (dir name : Text) : Text :=
  if Path.isDot dir then name else Path.join dir name

/-- Whether a written-out component leads on: dots do so in any directory, other names when something
is there, be it a link that leads nowhere. -/
def leadsOn (t : Tree) (spot : Spot) (name : Text) : Bool :=
  if name = ['.'] ∨ name = ['.', '.'] then spot.isDir
  else (t.entryItself? (child spot.path name)).isSome

/-- The dots that a component matches: only one that itself starts with a dot does. -/
def dots (c : Component) : List Text :=
  if c.head? = some (.char '.') then
    [['.', '.'], ['.']].filter (Component.matches c)
  else []

/-- The results of the components from a spot.  `deeper` continues, from a directory further down, a
component that stands for any directories. -/
def expandWith (t : Tree) (only : Bool) (deeper : List Component → Spot → List Find) :
    List Component → Spot → List Find
  | [], spot => if !only || spot.isDir then [.path spot.path] else []
  | c :: rest, spot =>
    match Component.literal? c with
    | some name =>
      if leadsOn t spot name then
        expandWith t only deeper rest (.ofPath t (child spot.path name))
      else []
    | none =>
      if spot.isDir then
        match t.list spot.path with
        | .error cause => [.unreadable ⟨spot.path, cause⟩]
        | .ok entries =>
          let special := (dots c).flatMap fun dot =>
            expandWith t only deeper rest (.ofPath t (Path.join spot.path dot))
          special ++ entries.flatMap fun (name, entry) =>
            let inner := Spot.ofEntry t (child spot.path name) entry
            if Component.isDirectories c then
              let own :=
                match rest with
                | [] => if inner.isDir then [.path inner.path] else []
                | d :: rest =>
                  if Component.matches d name then expandWith t only deeper rest inner else []
              own ++ if inner.isDir then deeper (c :: rest) inner else []
            else if Component.matches c name then expandWith t only deeper rest inner
            else []
      else []

/-- The results of the components from a spot, at most so many levels below it where a component
stands for any directories. -/
def expandWithin (t : Tree) (only : Bool) : Nat → List Component → Spot → List Find
  | 0 => expandWith t only fun _ _ => []
  | levels + 1 => expandWith t only (expandWithin t only levels)

/-- The results of a pattern, in order.  Every level adds to the path, and a directory whose path has
`Tree.pathLimit` bytes cannot be read, so no walk has more levels than that. -/
def Pattern.expand (p : Pattern) (t : Tree) : List Find :=
  expandWithin t p.directoriesOnly Tree.pathLimit p.components
    (.ofPath t (if p.absolute then ['/'] else ['.']))

end Docblocks.Glob
