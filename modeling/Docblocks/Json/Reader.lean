/-
# Docblocks.Json.Reader — reading JSON texts.

The reader follows the JSON grammar with a limit on nesting.  A fault is `ended` when the text stops
where more was due, and `malformed` otherwise.  Blanks are the space, the tab, the line feed and the
carriage return.
-/
import Docblocks.Json.Node
import Docblocks.Text.Utf8

namespace Docblocks.Json

/-! ## Blanks and words -/

/-- A blank between the parts of a JSON text. -/
def isBlank (c : Char) : Bool :=
  c = ' ' || c = '\t' || c = '\n' || c = '\r'

/-- The text from its first part on. -/
def skipBlanks (s : Text) : Text :=
  s.dropWhile isBlank

/-- What follows a word that has to come next. -/
def expect : Text → Text → Except Fault Text
  | [], s => .ok s
  | _ :: _, [] => .error .ended
  | w :: ws, c :: s => if w = c then expect ws s else .error .malformed

/-! ## Strings -/

/-- The value of a hexadecimal digit. -/
def hexDigit? (c : Char) : Option Nat :=
  if '0' ≤ c ∧ c ≤ '9' then some (c.toNat - '0'.toNat)
  else if 'a' ≤ c ∧ c ≤ 'f' then some (c.toNat - 'a'.toNat + 10)
  else if 'A' ≤ c ∧ c ≤ 'F' then some (c.toNat - 'A'.toNat + 10)
  else none

/-- The value of four hexadecimal digits. -/
def hex4? (a b c d : Char) : Option Nat := do
  let a ← hexDigit? a
  let b ← hexDigit? b
  let c ← hexDigit? c
  let d ← hexDigit? d
  return ((a * 16 + b) * 16 + c) * 16 + d

/-- The first half of a surrogate pair. -/
def isHigh (n : Nat) : Bool := 0xD800 ≤ n && n ≤ 0xDBFF

/-- The second half of a surrogate pair. -/
def isLow (n : Nat) : Bool := 0xDC00 ≤ n && n ≤ 0xDFFF

/-- The character of a surrogate pair. -/
def ofPair (high low : Nat) : Char :=
  Char.ofNat (0x10000 + (high - 0xD800) * 0x400 + (low - 0xDC00))

/-- The fault of a text that has no four hexadecimal digits where they are due: it has ended when it
has not even four bytes left. -/
def hexFault (s : Text) : Fault :=
  if Text.Utf8.byteLength s < 4 then .ended else .malformed

/-- The character that a letter after a backslash stands for. -/
def escaped? (c : Char) : Option Char :=
  if c = '"' then some '"'
  else if c = '\\' then some '\\'
  else if c = '/' then some '/'
  else if c = 'b' then some '\x08'
  else if c = 'f' then some '\x0c'
  else if c = 'n' then some '\n'
  else if c = 'r' then some '\r'
  else if c = 't' then some '\t'
  else none

/-- A character before the rest of a string. -/
def push (c : Char) : Except Fault (Text × Text) → Except Fault (Text × Text)
  | .ok (s, rest) => .ok (c :: s, rest)
  | .error fault => .error fault

/-- The string after an opening quote, and what follows its closing quote. -/
def readString : Text → Except Fault (Text × Text)
  | [] => .error .ended
  | c :: s =>
    if c = '"' then .ok ([], s)
    else if c = '\\' then
      match s with
      | [] => .error .ended
      | e :: s =>
        if e = 'u' then
          match s with
          | h₁ :: h₂ :: h₃ :: h₄ :: s =>
            match hex4? h₁ h₂ h₃ h₄ with
            | none => .error .malformed
            | some n =>
              if isLow n then .error .malformed
              else if isHigh n then
                match s with
                | [] => .error .ended
                | b :: s =>
                  if b = '\\' then
                    match s with
                    | [] => .error .ended
                    | u :: s =>
                      if u = 'u' then
                        match s with
                        | l₁ :: l₂ :: l₃ :: l₄ :: s =>
                          match hex4? l₁ l₂ l₃ l₄ with
                          | none => .error .malformed
                          | some m =>
                            if isLow m then push (ofPair n m) (readString s)
                            else .error .malformed
                        | s => .error (hexFault s)
                      else .error .malformed
                  else .error .malformed
              else push (Char.ofNat n) (readString s)
          | s => .error (hexFault s)
        else
          match escaped? e with
          | some d => push d (readString s)
          | none => .error .malformed
    else if c.toNat < 0x20 then .error .malformed
    else push c (readString s)

/-! ## Values -/

/-- The value that a scalar read gives. -/
def ofScalar {α : Type} (make : α → Node) : Except Fault (α × Text) → Node × Text
  | .ok (a, rest) => (make a, rest)
  | .error fault => (.broken fault, [])

/-- The value that a word gives. -/
def ofWord (node : Node) : Except Fault Text → Node × Text
  | .ok rest => (node, rest)
  | .error fault => (.broken fault, [])

/-- The items of a list, the fault that stopped them, and what follows.  `first` is set before the
first item; the number bounds how many items are read. -/
def readItems (item : Text → Node × Text) : Nat → Bool → Text → List Node × Option Fault × Text
  | 0, _, _ => ([], some .ended, [])
  | fuel + 1, first, s =>
    let next := fun s =>
      let (node, rest) := item s
      match node.stop? with
      | some fault => ([node], some fault, [])
      | none =>
        let (nodes, stop, rest) := readItems item fuel false rest
        (node :: nodes, stop, rest)
    match skipBlanks s with
    | [] => ([], some .ended, [])
    | c :: s =>
      if c = ']' then ([], none, s)
      else if first then next (c :: s)
      else if c = ',' then
        match skipBlanks s with
        | [] => ([], some .ended, [])
        | c :: s => if c = ']' then ([], some .malformed, []) else next (c :: s)
      else ([], some .malformed, [])

/-- The value of a member, from what follows its name. -/
def readMemberValue (item : Text → Node × Text) (s : Text) : Node × Text :=
  match skipBlanks s with
  | [] => (.broken .ended, [])
  | c :: s => if c = ':' then item s else (.broken .malformed, [])

/-- The members of an object, as `readItems`. -/
def readMembers (item : Text → Node × Text) :
    Nat → Bool → Text → List (Text × Node) × Option Fault × Text
  | 0, _, _ => ([], some .ended, [])
  | fuel + 1, first, s =>
    let next := fun s =>
      match s with
      | [] => ([], some .ended, [])
      | c :: s =>
        if c = '"' then
          match readString s with
          | .error fault => ([], some fault, [])
          | .ok (name, rest) =>
            let (node, rest) := readMemberValue item rest
            match node.stop? with
            | some fault => ([(name, node)], some fault, [])
            | none =>
              let (members, stop, rest) := readMembers item fuel false rest
              ((name, node) :: members, stop, rest)
        else ([], some .malformed, [])
    match skipBlanks s with
    | [] => ([], some .ended, [])
    | c :: s =>
      if c = '\x7d' then ([], none, s)
      else if first then next (c :: s)
      else if c = ',' then next (skipBlanks s)
      else ([], some .malformed, [])

/-- Reads a value whose items and members are read by `item`, which is nothing once no further nesting
is allowed. -/
def readValue (item : Option (Text → Node × Text)) (s : Text) : Node × Text :=
  match skipBlanks s with
  | [] => (.broken .ended, [])
  | c :: s =>
    if c = 'n' then ofWord .null (expect ['u', 'l', 'l'] s)
    else if c = 't' then ofWord (.bool true) (expect ['r', 'u', 'e'] s)
    else if c = 'f' then ofWord (.bool false) (expect ['a', 'l', 's', 'e'] s)
    else if c = '-' then ofScalar .number (Number.read true s)
    else if c.isDigit then ofScalar .number (Number.read false (c :: s))
    else if c = '"' then ofScalar .string (readString s)
    else if c = '[' then
      match item with
      | none => (.broken .malformed, [])
      | some item =>
        let (items, stop, rest) := readItems item (s.length + 1) true s
        (.array items stop, rest)
    else if c = '\x7b' then
      match item with
      | none => (.broken .malformed, [])
      | some item =>
        let (members, stop, rest) := readMembers item (s.length + 1) true s
        (.object members stop, rest)
    else (.broken .malformed, [])

/-- Reads a value with at most so many lists and objects inside each other. -/
def readNested : Nat → Text → Node × Text
  | 0 => readValue none
  | depth + 1 => readValue (some (readNested depth))

/-- How many lists and objects may stand inside each other. -/
def depthLimit : Nat := 127

/-- Reads the value that a text starts with, and gives what follows it. -/
def read (s : Text) : Node × Text :=
  readNested depthLimit s

end Docblocks.Json
