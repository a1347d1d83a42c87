/-
# Docblocks.Block — the tagged blocks of a source text.

Lines are read without their leading blanks.  Outside a block, a line that starts with the opening
mark and carries a tag after it opens one.  Inside, a line that starts with the closing mark ends the
block and contributes nothing; any other line that starts with the line mark is captured; the rest is
passed over.  The closing mark is looked for first, because a line mark may be a part of it.  A block
still open at the end of the text is kept.
-/
import Docblocks.Fragment
import Docblocks.Markers
import Docblocks.Text.Lines

namespace Docblocks.Block

/-- The block that a line opens, if any. -/
def open? (m : Markers) (line : Text) : Option Fragment :=
  ((Text.after? m.opening line).bind Tag.parse?).map Fragment.ofTag

/-- A fragment after a line inside its block that does not close it. -/
def capture (m : Markers) (f : Fragment) (line : Text) : Fragment :=
  match Text.after? m.line line with
  | some rest => f.push (m.clean rest)
  | none => f

/-- One line: the fragment it completes, if any, and the block that is then open. -/
def step (m : Markers) : Option Fragment → Text → Option Fragment × Option Fragment
  | none, line => (none, open? m line)
  | some f, line =>
    if Text.startsWith m.closing line then (some f, none) else (none, some (capture m f line))

/-- The fragments of a list of lines, given the block that is open before them. -/
def parseFrom (m : Markers) : Option Fragment → List Text → List Fragment
  | state, [] => state.toList
  | state, line :: lines =>
    (step m state line).1.toList ++ parseFrom m (step m state line).2 lines

/-- The fragments of a source text, in the order in which their blocks open. -/
def parse (m : Markers) (source : Text) : List Fragment :=
  parseFrom m none ((Text.lines source).map Text.trimStart)

end Docblocks.Block
