/-
# Docblocks.Error — why a run fails.
-/
import Docblocks.Scan
import Docblocks.Settings.Reader
import Docblocks.Writing

namespace Docblocks

/-- What ends a run. -/
inductive Error
  /-- The settings lack something. -/
  | settings (lack : Settings.Lack)
  /-- A pattern cannot be read. -/
  | pattern (fault : Glob.Fault)
  /-- A directory that patterns lead through cannot be read. -/
  | walk (refusal : Refusal)
  /-- The tree refuses a path. -/
  | file (refusal : Refusal)
  /-- A settings file cannot be understood. -/
  | content (fault : Settings.Fault)
  deriving Repr

/-- The error of a failed scan. -/
def Error.ofScan : Scan.Fault → Error
  | .pattern fault => .pattern fault
  | .walk refusal => .walk refusal
  | .file refusal => .file refusal

/-- A refusal in words. -/
def Refusal.message (r : Refusal) : Text :=
  "IO error at ".toList ++ r.path ++ ": ".toList ++ r.cause.message.toList

/-- An error in words.  What is wrong with a text that is no JSON is not spelt out. -/
def Error.message : Error → Text
  | .settings lack => "Config error: ".toList ++ lack.message.toList
  | .pattern fault => "Invalid pattern: ".toList ++ fault.message
  | .walk refusal =>
    "Failed to read matched path: attempting to read `".toList ++ refusal.path ++
      "` resulted in an error: ".toList ++ refusal.cause.message.toList
  | .file refusal => refusal.message
  | .content fault =>
    match fault.message? with
    | some message => "Serialization error: ".toList ++ message
    | none => "Serialization error:".toList

end Docblocks
