/-
# Docblocks.CommandLine.Flag — the options of the command line.
-/
import Docblocks.Text.Basic

namespace Docblocks.CommandLine

/-- An option. -/
inductive Flag
  | output
  | pattern
  | opening
  | closing
  | line
  | strip
  | extension
  | unslash
  | settings
  | help
  | version
  deriving DecidableEq, Repr

/-- What an option takes. -/
inductive Takes
  /-- Nothing. -/
  | nothing
  /-- One value, which does not look like an option. -/
  | value
  /-- One value, whatever it looks like. -/
  | anything
  /-- One or more values that do not look like options. -/
  | values
  deriving DecidableEq, Repr

namespace Flag

/-- The long name. -/
def long : Flag → String
  | .output => "output"
  | .pattern => "pattern"
  | .opening => "begin"
  | .closing => "end"
  | .line => "line"
  | .strip => "strip"
  | .extension => "extension"
  | .unslash => "unslash"
  | .settings => "config"
  | .help => "help"
  | .version => "version"

/-- The letter. -/
def short : Flag → Char
  | .output => 'o'
  | .pattern => 'p'
  | .opening => 'b'
  | .closing => 'e'
  | .line => 'l'
  | .strip => 's'
  | .extension => 'x'
  | .unslash => 'u'
  | .settings => 'c'
  | .help => 'h'
  | .version => 'V'

/-- What an option takes: a mark may look like anything, other values may not look like options. -/
def takes : Flag → Takes
  | .output | .extension | .settings => .value
  | .pattern => .values
  | .opening | .closing | .line | .strip => .anything
  | .unslash | .help | .version => .nothing

/-- Whether an option's value names a file or directory and so cannot be empty. -/
def namesPath : Flag → Bool
  | .output | .settings => true
  | _ => false

/-- All options, in the order in which they are listed. -/
def all : List Flag :=
  [.output, .pattern, .opening, .closing, .line, .strip, .extension, .unslash, .settings, .help,
    .version]

/-- The option with a long name. -/
def ofLong? (name : Text) : Option Flag :=
  all.find? fun f => f.long.toList = name

/-- The option with a letter. -/
def ofShort? (c : Char) : Option Flag :=
  all.find? fun f => f.short = c

/-- What an option is for. -/
def about : Flag → String
  | .output => "Directory to put extracted docs in (created if missing)"
  | .pattern => "Quoted file pattern to match, e.g. 'src/**/*.rs' (repeatable)"
  | .opening => "Characters that denote the beginning of a doc block [default: /**]"
  | .closing => "Characters that denote the end of a doc block [default: */]"
  | .line => "Lines within doc blocks start with this [default: *]"
  | .strip => "Strip this string from the beginning of every line [default: \" \"]"
  | .extension => "Extension, with leading dot, for exported docs [default: .txt]"
  | .unslash => "Convert \\/ to /"
  | .settings => "JSON file with any of the options above; flags take precedence"
  | .help => "Print help"
  | .version => "Print version"

/-! ## Options in messages -/

/-- The long name with its hyphens. -/
def spelt (f : Flag) : Text :=
  '-' :: '-' :: f.long.toList

/-- What stands for the values of an option. -/
def placeholder (f : Flag) : Text :=
  let one := " <".toList ++ f.long.toList.map Char.toUpper ++ ['>']
  match f.takes with
  | .nothing => []
  | .value | .anything => one
  | .values => one ++ "...".toList

/-- An option as messages show it. -/
def shown (f : Flag) : Text :=
  f.spelt ++ f.placeholder

end Flag

end Docblocks.CommandLine
