/-
# Docblocks.Settings.Reader — settings from a JSON text.

A settings text is an object.  Every setting may be left out and then has its default; a name that is
no setting is passed over.  The pattern is a string or a list of strings.

The order of faults is fixed.  Pattern, output and extension are looked at while the members are read,
in the order of the text: a name that comes a second time is a fault before its value is looked at, an
output or extension of the wrong kind as soon as its value starts, a wrong pattern once all of it was
read.  The marks wait until the object is complete, and are then looked at in the order of the text in
the same way.  What follows the object comes last.
-/
import Docblocks.Json.Reader
import Docblocks.Settings.Field

namespace Docblocks.Settings

open Docblocks.Json (Node)

/-! ## Faults -/

/-- What a value was expected to be. -/
inductive Want
  | settings
  | path
  | string
  | boolean
  deriving DecidableEq, Repr

/-- Why a text gives no settings. -/
inductive Fault
  /-- It is no JSON text. -/
  | json (fault : Json.Fault)
  /-- A value is of the wrong kind. -/
  | kind (got : Node) (want : Want)
  /-- A setting is given twice. -/
  | repeated (field : Field)
  /-- The pattern is neither a string nor a list of strings. -/
  | pattern
  deriving Repr

/-- An expectation in words. -/
def Want.message : Want → String
  | .settings => "struct ExtractConfig"
  | .path => "path string"
  | .string => "a string"
  | .boolean => "a boolean"

/-- What does not fit in a JSON text that can be read, in words; nothing for a text that cannot. -/
def Fault.message? : Fault → Option Text
  | .json _ => none
  | .kind got want =>
    some ("invalid type: ".toList ++ got.kind ++ ", expected ".toList ++ want.message.toList)
  | .repeated field => some ("duplicate field `".toList ++ field.name ++ ['\x60'])
  | .pattern => some "data did not match any variant of untagged enum OneOrMany".toList

/-! ## Drafts -/

/-- The settings given so far. -/
structure Draft where
  patterns? : Option (List Text) := none
  output? : Option Text := none
  opening? : Option Text := none
  closing? : Option Text := none
  line? : Option Text := none
  strip? : Option Text := none
  unslash? : Option Bool := none
  extension? : Option Text := none
  deriving DecidableEq, Repr

namespace Draft

/-- Whether a setting is given. -/
def has (d : Draft) : Field → Bool
  | .pattern => d.patterns?.isSome
  | .output => d.output?.isSome
  | .opening => d.opening?.isSome
  | .closing => d.closing?.isSome
  | .line => d.line?.isSome
  | .strip => d.strip?.isSome
  | .unslash => d.unslash?.isSome
  | .extension => d.extension?.isSome

/-- The settings of a draft, with defaults for what is not given. -/
def settings (d : Draft) : Settings :=
  let marks : Markers := {}
  let rest : Settings := {}
  { patterns := d.patterns?.getD rest.patterns
    output := d.output?.getD rest.output
    markers :=
      { opening := d.opening?.getD marks.opening
        closing := d.closing?.getD marks.closing
        line := d.line?.getD marks.line
        strip := d.strip?.getD marks.strip
        unslash := d.unslash?.getD marks.unslash }
    extension := d.extension?.getD rest.extension }

end Draft

/-! ## Values -/

/-- The text of a value that has to be a string. -/
def textOf (want : Want) : Node → Except Fault Text
  | .string s => .ok s
  | .broken fault => .error (.json fault)
  | node => .error (.kind node want)

/-- The truth of a value that has to be a truth value. -/
def boolOf : Node → Except Fault Bool
  | .bool b => .ok b
  | .broken fault => .error (.json fault)
  | node => .error (.kind node .boolean)

/-- The patterns of a value that has to be a string or a list of strings, and has been read to its
end. -/
def patternsOf (node : Node) : Except Fault (List Text) :=
  match node.stop? with
  | some fault => .error (.json fault)
  | none =>
    match node with
    | .string s => .ok [s]
    | .array items _ =>
      match items.mapM Node.text? with
      | some texts => .ok texts
      | none => .error .pattern
    | _ => .error .pattern

/-- The value of one setting, put into a draft that does not have it yet. -/
def Draft.put (d : Draft) (node : Node) : Field → Except Fault Draft
  | .pattern => (fun v => { d with patterns? := some v }) <$> patternsOf node
  | .output => (fun v => { d with output? := some v }) <$> textOf .path node
  | .opening => (fun v => { d with opening? := some v }) <$> textOf .string node
  | .closing => (fun v => { d with closing? := some v }) <$> textOf .string node
  | .line => (fun v => { d with line? := some v }) <$> textOf .string node
  | .strip => (fun v => { d with strip? := some v }) <$> textOf .string node
  | .unslash => (fun v => { d with unslash? := some v }) <$> boolOf node
  | .extension => (fun v => { d with extension? := some v }) <$> textOf .string node

/-! ## Members -/

/-- Puts the members that are settings of one group into a draft, in the order of the text. -/
def Draft.putAll (group : Field → Bool) : Draft → List (Text × Node) → Except Fault Draft
  | d, [] => .ok d
  | d, (name, node) :: rest =>
    match Field.ofName? name with
    | none => putAll group d rest
    | some field =>
      if group field then
        if d.has field then .error (.repeated field)
        else
          match d.put node field with
          | .error fault => .error fault
          | .ok d => putAll group d rest
      else putAll group d rest

/-- The settings that the members of an object give. -/
def ofMembers (members : List (Text × Node)) (stop : Option Json.Fault) : Except Fault Settings := do
  let d ← Draft.putAll (fun field => !field.isMark) {} members
  match stop with
  | some fault => throw (.json fault)
  | none => return (← Draft.putAll Field.isMark d members).settings

/-- The settings that a value gives. -/
def ofNode : Node → Except Fault Settings
  | .object members stop => ofMembers members stop
  | .broken fault => .error (.json fault)
  | node => .error (.kind node .settings)

/-- Reads settings from a JSON text. -/
def read (s : Text) : Except Fault Settings := do
  let (node, rest) := Json.read s
  let settings ← ofNode node
  if (Json.skipBlanks rest).isEmpty then return settings else throw (.json .malformed)

end Docblocks.Settings
