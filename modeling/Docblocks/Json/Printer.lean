/-
# Docblocks.Json.Printer — writing JSON texts.

Strings escape quotes, backslashes and the characters below U+0020, and nothing else.
-/
import Docblocks.Text.Basic

namespace Docblocks.Json

/-- How one character is written in a string. -/
def escapeChar (c : Char) : Text :=
  if c = '"' then ['\\', '"']
  else if c = '\\' then ['\\', '\\']
  else if c = '\x08' then ['\\', 'b']
  else if c = '\t' then ['\\', 't']
  else if c = '\n' then ['\\', 'n']
  else if c = '\x0c' then ['\\', 'f']
  else if c = '\r' then ['\\', 'r']
  else if c.toNat < 0x20 then
    ['\\', 'u', '0', '0', Nat.digitChar (c.toNat / 16), Nat.digitChar (c.toNat % 16)]
  else [c]

/-- A string. -/
def writeString (s : Text) : Text :=
  '"' :: s.flatMap escapeChar ++ ['"']

/-- A truth value. -/
def writeBool (b : Bool) : Text :=
  if b then ['t', 'r', 'u', 'e'] else ['f', 'a', 'l', 's', 'e']

/-- A list of values that are already written. -/
def writeArray (items : List Text) : Text :=
  '[' :: List.intercalate [','] items ++ [']']

/-- An object of names and values that are already written. -/
def writeObject (members : List (Text × Text)) : Text :=
  '\x7b' :: List.intercalate [','] (members.map fun m => writeString m.1 ++ ':' :: m.2) ++ ['\x7d']

end Docblocks.Json
