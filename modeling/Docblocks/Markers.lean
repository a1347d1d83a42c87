/-
# Docblocks.Markers — the marks of a documentation block.

Four texts and a switch say how a block looks: what opens it, what closes it, what starts each of its
lines, what is stripped after that, and whether an escaped slash is turned back into a slash.
-/
import Docblocks.Text.Basic

namespace Docblocks

/-- The marks that delimit a block and its lines. -/
structure Markers where
  /-- Opens a block, when a tag follows. -/
  opening : Text := ['/', '*', '*']
  /-- Closes a block. -/
  closing : Text := ['*', '/']
  /-- Starts every line that is captured. -/
  line : Text := ['*']
  /-- Removed once after the line mark. -/
  strip : Text := [' ']
  /-- Whether a backslash before a slash is removed, once per line. -/
  unslash : Bool := false
  deriving DecidableEq, Repr

namespace Markers

/-- Removes one `strip` from the start of a text, if the text starts with it. -/
def stripOnce (strip s : Text) : Text :=
  (Text.after? strip s).getD s

/-- Replaces the first backslash that a slash follows, and that slash, by the slash alone. -/
def unslashOnce : Text → Text
  | [] => []
  | [c] => [c]
  | c :: d :: s => if c = '\\' ∧ d = '/' then '/' :: s else c :: unslashOnce (d :: s)

/-- The text of a captured line, from what follows its line mark. -/
def clean (m : Markers) (s : Text) : Text :=
  let t := stripOnce m.strip s
  if m.unslash then unslashOnce t else t

end Markers

end Docblocks
