/-
# Docblocks.Tree.Path — paths as texts.

A path is a text whose pieces stand between slashes.  `steps` is how the tree reads it; `parent?` and
`join` work on the text itself and normalise nothing that stays.
-/
import Docblocks.Text.Utf8

namespace Docblocks

namespace Text

/-- The pieces of a text between the `d`s; a text without `d` is one piece. -/
def pieces (d : Char) : Text → List Text
  | [] => [[]]
  | c :: s =>
    if c = d then [] :: pieces d s
    else
      match pieces d s with
      | [] => [[c]]
      | p :: ps => (c :: p) :: ps

end Text

namespace Path

/-- One step along a path. -/
inductive Step
  /-- Into the entry of this name. -/
  | name (n : Text)
  /-- A dot: nowhere. -/
  | here
  /-- Two dots: to the parent. -/
  | up
  /-- A slash at the very end: what is before it has to be a directory. -/
  | slash
  deriving DecidableEq, Repr

/-- An absolute path starts with a slash. -/
def isAbsolute (path : Text) : Bool :=
  path.head? = some '/'

/-- The step of one piece; an empty piece is none. -/
def step? (piece : Text) : Option Step :=
  if piece = [] then none
  else if piece = ['.'] then some .here
  else if piece = ['.', '.'] then some .up
  else some (.name piece)

/-- The steps of a path, with a last one for a slash at its end. -/
def steps (path : Text) : List Step :=
  let taken := (Text.pieces '/' path).filterMap step?
  if path.getLast? = some '/' ∧ taken ≠ [] then taken ++ [.slash] else taken

/-- A piece that adds nothing to a path unless it comes first. -/
def isVoid (piece : Text) : Bool :=
  piece = [] || piece = ['.']

/-- Drops the void pieces at the end. -/
def dropVoid (ps : List Text) : List Text :=
  (ps.reverse.dropWhile isVoid).reverse

/-- Puts slashes between pieces. -/
def glue (ps : List Text) : Text :=
  List.intercalate ['/'] ps

/-- The path without its last piece.  Repeated slashes, a slash at the end and dots that do not come
first do not count as pieces; the rest is kept as written.  The root and the empty path have no
parent. -/
def parent? (path : Text) : Option Text :=
  match path with
  | [] => none
  | c :: rest =>
    if c = '/' then
      match dropVoid (Text.pieces '/' rest) with
      | [] => none
      | ps => some ('/' :: glue (dropVoid ps.dropLast))
    else
      match Text.pieces '/' (c :: rest) with
      | [] => none
      | first :: others =>
        match dropVoid others with
        | [] => some []
        | ps => some (glue (first :: dropVoid ps.dropLast))

/-- `name` under `dir`: one slash is put between them unless there is one. -/
def join (dir name : Text) : Text :=
  if dir = [] ∨ dir.getLast? = some '/' then dir ++ name else dir ++ '/' :: name

/-- Whether a path is a way to write the working directory with dots alone. -/
def isDot (path : Text) : Bool :=
  match Text.pieces '/' path with
  | [] => false
  | first :: others => first = ['.'] && others.all isVoid

end Path

end Docblocks
