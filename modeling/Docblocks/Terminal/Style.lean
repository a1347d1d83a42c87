/-
# Docblocks.Terminal.Style — text that is set off on a terminal.

A style starts with escape sequences and ends with the one that ends every style, so styles do not
nest: where one ends inside a styled text, the outer one has to be started again.
-/
import Docblocks.Text.Basic

namespace Docblocks.Terminal

/-- The escape sequence that selects a rendition. -/
def rendition (code : Text) : Text :=
  '\x1b' :: '[' :: code ++ ['m']

/-- The escape sequence that ends every style. -/
def reset : Text :=
  rendition ['0']

/-- How a text is set off. -/
inductive Style
  | faint
  | bold
  | red
  | green
  | yellow
  | boldRed
  | boldUnderlined
  deriving DecidableEq, Repr

namespace Style

/-- The escape sequences that start a style. -/
def start : Style → Text
  | faint => rendition ['2']
  | bold => rendition ['1']
  | red => rendition ['3', '1']
  | green => rendition ['3', '2']
  | yellow => rendition ['3', '3']
  | boldRed => rendition ['1'] ++ rendition ['3', '1']
  | boldUnderlined => rendition ['1'] ++ rendition ['4']

/-- A text in a style. -/
def apply (style : Style) (s : Text) : Text :=
  style.start ++ s ++ reset

/-- Starts a style again wherever a text ends one. -/
def restart (style : Style) : Text → Text
  | '\x1b' :: '[' :: '0' :: 'm' :: s => reset ++ style.start ++ restart style s
  | c :: s => c :: restart style s
  | [] => []

/-- A text that may have styles of its own, in a style that holds to its end. -/
def wrap (style : Style) (s : Text) : Text :=
  style.apply (style.restart s)

end Style

end Docblocks.Terminal
