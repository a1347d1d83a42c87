/-
# Docblocks.Fragment — what a block holds.

A chunk is the captured lines of one block, each with its line feed.  A fragment is a chunk with the
tag of its block.
-/
import Docblocks.Tag

namespace Docblocks

/-- The captured lines of a block, each ending in a line feed. -/
structure Chunk where
  lines : List Text := []
  deriving DecidableEq, Repr

namespace Chunk

/-- Adds a line, given without its line feed. -/
def push (c : Chunk) (line : Text) : Chunk :=
  ⟨c.lines ++ [line ++ ['\n']]⟩

/-- The chunk of the given lines. -/
def ofLines (lines : List Text) : Chunk :=
  lines.foldl push {}

/-- A chunk is empty when it has no line; a blank line counts as a line. -/
def isEmpty (c : Chunk) : Bool :=
  c.lines.isEmpty

/-- The lines in one piece. -/
def text (c : Chunk) : Text :=
  c.lines.flatten

@[simp]
theorem lines_push (c : Chunk) (line : Text) : (c.push line).lines = c.lines ++ [line ++ ['\n']] :=
  rfl

end Chunk

/-- One block: where it goes and what it holds. -/
structure Fragment where
  path : Text
  order : Text
  chunk : Chunk := {}
  deriving DecidableEq, Repr

namespace Fragment

/-- The fragment that a tag opens, still without lines. -/
def ofTag (t : Tag) : Fragment :=
  ⟨t.path, t.order, {}⟩

/-- Adds a line to a fragment's chunk. -/
def push (f : Fragment) (line : Text) : Fragment :=
  { f with chunk := f.chunk.push line }

end Fragment

end Docblocks
