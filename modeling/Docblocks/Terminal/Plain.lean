/-
# Docblocks.Terminal.Plain — text without escape sequences.

What a text shows where there is no terminal to act on its escape sequences: `plain` leaves the
sequences out, and with them the control characters that do not lay out text.

A sequence runs from the escape character to its final character; only control strings and commands
run further, to a terminator.  A control character that lays out text is kept even inside a sequence,
and sets the sequence aside: what follows is text, up to the next control character that is left out,
where the sequence goes on.
-/
import Docblocks.Text.Utf8

namespace Docblocks.Terminal

/-! ## Characters -/

/-- Whether a control character lays out text: a tab, line feed, form feed or carriage return. -/
def isLayout (c : Char) : Bool :=
  c = '\t' || c = '\n' || c = '\x0c' || c = '\r'

/-- Whether a character outside sequences is kept. -/
def isKept (c : Char) : Bool :=
  isLayout c || (' ' ≤ c && c != '\x7f')

/-- Whether a character outside ASCII ends a control string, because the byte 9C is part of it. -/
def endsString (c : Char) : Bool :=
  (Text.Utf8.encode [c]).contains 0x9C

/-! ## Sequences -/

/-- Where in a text with escape sequences a character stands. -/
inductive Place
  /-- Outside any sequence. -/
  | text
  /-- After the escape character. -/
  | escape
  /-- After an intermediate character of an escape sequence. -/
  | intermediate
  /-- In a control sequence. -/
  | control
  /-- At the start of a device control string. -/
  | device
  /-- After a parameter of a device control string. -/
  | deviceParameter
  /-- After an intermediate character of a device control string. -/
  | deviceIntermediate
  /-- In the body of a control string. -/
  | body
  /-- In an operating system command. -/
  | command
  deriving DecidableEq, Repr

/-- Whether control characters are acted on inside the sequence, rather than being part of it. -/
def Place.heedsControls : Place → Bool
  | .escape | .intermediate | .control => true
  | _ => false

/-- The place after a printable ASCII character. -/
def Place.next (c : Char) : Place → Place
  | .text => .text
  | .escape =>
    match c with
    | '[' => .control
    | ']' => .command
    | 'P' => .device
    | 'X' | '^' | '_' => .body
    | c => if c < '0' then .intermediate else .text
  | .intermediate => if c < '0' then .intermediate else .text
  | .control => if c < '@' then .control else .text
  | .device =>
    if c < '0' then .deviceIntermediate else if c < '@' then .deviceParameter else .body
  | .deviceParameter =>
    if c < '0' then .deviceIntermediate else if c < '<' then .deviceParameter else .body
  | .deviceIntermediate => if c < '0' then .deviceIntermediate else .body
  | .body => .body
  | .command => .command

/-- How far the reading of a text with escape sequences has come. -/
structure Reading where
  place : Place := .text
  /-- Whether the sequence is set aside, and what is read now is text. -/
  aside : Bool := false
  deriving DecidableEq, Repr

/-- Reads a character, and tells whether it is kept.  The escape character starts a sequence anywhere,
and the characters U+0018 and U+001A end one anywhere. -/
def Reading.step (r : Reading) (c : Char) : Reading × Bool :=
  if c = '\x1b' then (⟨.escape, false⟩, false)
  else if c = '\x18' || c = '\x1a' then (⟨.text, false⟩, false)
  else if r.aside || r.place = .text then
    if !isKept c then (⟨r.place, false⟩, false)
    else if c < '\x7f' then (r, true)
    else (⟨.text, false⟩, true)
  else if c < ' ' then
    if r.place.heedsControls && isLayout c then (⟨r.place, true⟩, true)
    else if r.place = .command && c = '\x07' then (⟨.text, false⟩, false)
    else (r, false)
  else if c < '\x7f' then (⟨r.place.next c, false⟩, false)
  else if r.place = .body && endsString c then (⟨.text, false⟩, false)
  else (r, false)

/-- What is kept of a text from some point on. -/
def Reading.plain (r : Reading) : Text → Text
  | [] => []
  | c :: s =>
    match r.step c with
    | (r, true) => c :: r.plain s
    | (r, false) => r.plain s

/-- A text without escape sequences. -/
def plain (s : Text) : Text :=
  ({} : Reading).plain s

end Docblocks.Terminal
