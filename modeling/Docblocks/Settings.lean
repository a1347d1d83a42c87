/-
# Docblocks.Settings — what one run needs to know.

The settings hold the patterns of the sources, the directory and extension of the documents, and the
marks of a block.  A run needs a pattern, an output directory, and marks that do not match every line;
`lack?` reports the first of these that is missing.
-/
import Docblocks.Markers

namespace Docblocks

/-- The settings of a run. -/
structure Settings where
  patterns : List Text := []
  output : Text := []
  markers : Markers := {}
  extension : Text := ['.', 't', 'x', 't']
  deriving DecidableEq, Repr

namespace Settings

/-- What settings can lack. -/
inductive Lack
  | pattern
  | output
  | opening
  | closing
  | line
  deriving DecidableEq, Repr

/-- The first thing that settings lack. -/
def lack? (s : Settings) : Option Lack :=
  if s.patterns.isEmpty then some .pattern
  else if s.output.isEmpty then some .output
  else if s.markers.opening.isEmpty then some .opening
  else if s.markers.closing.isEmpty then some .closing
  else if s.markers.line.isEmpty then some .line
  else none

/-- A lack in words. -/
def Lack.message : Lack → String
  | .pattern => "at least one pattern is required"
  | .output => "an output directory is required"
  | .opening => "the begin marker cannot be empty"
  | .closing => "the end marker cannot be empty"
  | .line => "the line marker cannot be empty"

end Settings

end Docblocks
