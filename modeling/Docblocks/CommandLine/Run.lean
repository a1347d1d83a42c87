/-
# Docblocks.CommandLine.Run — the program as a whole.

From its arguments and a file tree the program comes to an exit status, to what it prints, and to the
tree it leaves behind.
-/
import Docblocks.CommandLine.Request
import Docblocks.Extraction
import Docblocks.Terminal.Plain

namespace Docblocks.CommandLine

open Terminal (Style)

/-! ## Messages -/

/-- The style of a level. -/
def styleOf : Level → Style
  | .info => .faint
  | .success => .green
  | .warning => .yellow
  | .error => .red

/-- A message as a line, in its style if there are colours. -/
def render (colours : Bool) (m : Message) : Text :=
  (if colours then (styleOf m.level).wrap m.text else m.text) ++ ['\n']

/-! ## Help -/

/-- The width of the widest option. -/
def optionWidth : Nat :=
  (Flag.all.map fun f => f.shown.length).foldl max 0

/-- The line of the help about an option; what the options are for stands in one column. -/
def helpLine (f : Flag) : Text :=
  "  ".toList ++ Style.bold.apply ['-', f.short] ++ ", ".toList ++ Style.bold.apply f.spelt ++
    f.placeholder ++ List.replicate (optionWidth + 2 - f.shown.length) ' ' ++ f.about.toList ++
    ['\n']

/-- The help, with its styles. -/
def helpText : Text :=
  "Extract documentation from source comments into ordered, per-topic files\n\n".toList ++
    Style.boldUnderlined.apply "Usage:".toList ++ [' '] ++ Style.bold.apply "scratchy".toList ++
    " [OPTIONS]\n\n".toList ++ Style.boldUnderlined.apply "Options:".toList ++ ['\n'] ++
    Flag.all.flatMap helpLine

/-- The version. -/
def versionText : String :=
  "scratchy 0.2.0\n"

/-- What is said about arguments that cannot be understood, with its styles. -/
def usageText (fault : Fault) : Text :=
  Style.boldRed.apply "error:".toList ++ [' '] ++ fault.message ++ ['\n']

/-- A text with styles as it is printed: without colours no escape sequence is left in it, be it the
program's own or part of an argument. -/
def shown (colours : Bool) (s : Text) : Text :=
  if colours then s else Terminal.plain s

/-! ## Running -/

/-- How the program ends: its status and what it printed. -/
structure Exit where
  status : Nat
  out : Text := []
  err : Text := []
  deriving DecidableEq, Repr

/-- The end of a program that failed. -/
def Exit.ofError (colours : Bool) (e : Error) : Exit where
  status := 1
  err := render colours ⟨.error, "Error: ".toList ++ e.message⟩

/-- The settings of a run: those of the settings file or else the defaults, and the given options over
them. -/
def settingsOf (t : Tree) (g : Given) : Except Error Settings :=
  match g.settings? with
  | none => .ok (g.overlay {})
  | some path =>
    match Settings.load t path with
    | .error e => .error e
    | .ok s => .ok (g.overlay s)

/-- Runs an extraction with the given options. -/
def extract (colours : Bool) (g : Given) (t : Tree) : Exit × Tree :=
  match settingsOf t g with
  | .error e => (.ofError colours e, t)
  | .ok s =>
    match Extraction.runChecked s t with
    | (.error e, t') => (.ofError colours e, t')
    | (.ok outcome, t') => (⟨0, outcome.messages.flatMap (render colours), []⟩, t')

/-- Runs the program. -/
def run (colours : Bool) (arguments : List Text) (t : Tree) : Exit × Tree :=
  match Request.read arguments with
  | .error fault => (⟨2, [], shown colours (usageText fault)⟩, t)
  | .ok .help => (⟨0, shown colours helpText, []⟩, t)
  | .ok .version => (⟨0, versionText.toList, []⟩, t)
  | .ok (.extract given) => extract colours given t

end Docblocks.CommandLine
