/-
# Docblocks.Settings.Field — the names of settings, and settings as a JSON text.

Settings are written as an object with a member for every setting, in a fixed order, and with the pattern
always as a list.
-/
import Docblocks.Json.Printer
import Docblocks.Settings

namespace Docblocks.Settings

/-- A setting that a file can give. -/
inductive Field
  | pattern
  | output
  | opening
  | closing
  | line
  | strip
  | unslash
  | extension
  deriving DecidableEq, Repr

namespace Field

/-- The name of a setting in a file. -/
def name : Field → Text
  | .pattern => ['p', 'a', 't', 't', 'e', 'r', 'n']
  | .output => ['o', 'u', 't', 'p', 'u', 't']
  | .opening => ['b', 'e', 'g', 'i', 'n']
  | .closing => ['e', 'n', 'd']
  | .line => ['l', 'i', 'n', 'e']
  | .strip => ['s', 't', 'r', 'i', 'p']
  | .unslash => ['u', 'n', 's', 'l', 'a', 's', 'h']
  | .extension => ['e', 'x', 't', 'e', 'n', 's', 'i', 'o', 'n']

/-- All settings, in the order in which they are written. -/
def all : List Field :=
  [.pattern, .output, .opening, .closing, .line, .strip, .unslash, .extension]

/-- The setting of a name. -/
def ofName? (s : Text) : Option Field :=
  all.find? (·.name = s)

theorem ofName?_name (f : Field) : ofName? f.name = some f := by
  cases f <;> decide

/-- Whether a setting is one of the marks of a block. -/
def isMark : Field → Bool
  | .opening | .closing | .line | .strip | .unslash => true
  | .pattern | .output | .extension => false

end Field

/-- The value of one setting as a JSON text. -/
def writeField (s : Settings) : Field → Text
  | .pattern => Json.writeArray (s.patterns.map Json.writeString)
  | .output => Json.writeString s.output
  | .opening => Json.writeString s.markers.opening
  | .closing => Json.writeString s.markers.closing
  | .line => Json.writeString s.markers.line
  | .strip => Json.writeString s.markers.strip
  | .unslash => Json.writeBool s.markers.unslash
  | .extension => Json.writeString s.extension

/-- Settings as a JSON text. -/
def write (s : Settings) : Text :=
  Json.writeObject (Field.all.map fun field => (field.name, s.writeField field))

end Docblocks.Settings
