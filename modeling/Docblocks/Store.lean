/-
# Docblocks.Store — fragments gathered into documents.

A store keeps, for every path, the chunks that arrived for it: by ascending order key, and under one
key in the order of arrival.
-/
import Docblocks.Block
import Docblocks.Keyed

namespace Docblocks

/-- The chunks gathered so far, by path and then by order key. -/
structure Store where
  documents : Keyed (Keyed (List Chunk)) := []
  deriving DecidableEq, Repr

namespace Store

/-- Adds one fragment. -/
def append (s : Store) (f : Fragment) : Store :=
  ⟨s.documents.alter f.path fun document =>
    (document.getD []).alter f.order fun chunks => chunks.getD [] ++ [f.chunk]⟩

/-- Adds fragments one after the other. -/
def appendAll (s : Store) (fs : List Fragment) : Store :=
  fs.foldl append s

/-- Adds the fragments of a source text. -/
def absorb (s : Store) (m : Markers) (source : Text) : Store :=
  s.appendAll (Block.parse m source)

/-- The distinct paths, ascending. -/
def paths (s : Store) : List Text :=
  s.documents.keys

/-- The chunks of a path, by ascending key; none for a path that never arrived. -/
def chunks (s : Store) (path : Text) : List Chunk :=
  ((s.documents.get? path).getD []).values.flatten

/-- The text of a path's document. -/
def text (s : Store) (path : Text) : Text :=
  (s.chunks path).flatMap Chunk.text

end Store

end Docblocks
