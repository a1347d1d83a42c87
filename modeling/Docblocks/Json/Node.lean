/-
# Docblocks.Json.Node — what was read of a JSON value.

Reading never throws away what it has understood: where a text is faulty, the reader gives the part of
the value before the fault, with the fault at the place where reading stopped.  Whoever uses the value
can then decide what to report first, a fault of the text or something that does not fit in the part
that was read.
-/
import Docblocks.Json.Number
import Docblocks.Text.Quoted

namespace Docblocks.Json

/-- A JSON value as far as it was read. -/
inductive Node
  | null
  | bool (value : Bool)
  | number (value : Number)
  | string (value : Text)
  /-- A list, and the fault that stopped its reading. -/
  | array (items : List Node) (stop : Option Fault)
  /-- An object with its members as they were written, and the fault that stopped its reading. -/
  | object (members : List (Text × Node)) (stop : Option Fault)
  /-- Nothing of a value was read. -/
  | broken (fault : Fault)
  deriving Repr

namespace Node

/-- The fault that stopped the reading of a value. -/
def stop? : Node → Option Fault
  | .array _ stop => stop
  | .object _ stop => stop
  | .broken fault => some fault
  | _ => none

/-- What kind of value this is, with the value itself if it is a simple one. -/
def kind : Node → Text
  | .null => "null".toList
  | .bool true => "boolean `true`".toList
  | .bool false => "boolean `false`".toList
  | .number (.integer n) => "integer `".toList ++ Number.wholeText n ++ ['\x60']
  | .number (.double bits) => "floating point `".toList ++ Number.doubleText bits ++ ['\x60']
  | .string s => "string ".toList ++ Text.quoted s
  | .array _ _ => "sequence".toList
  | .object _ _ => "map".toList
  | .broken _ => "nothing".toList

/-- The text of a string. -/
def text? : Node → Option Text
  | .string s => some s
  | _ => none

end Node

end Docblocks.Json
