/-
# Docblocks.Text.Utf8 — text as bytes.

`encode` writes a text as UTF-8.  `decode` reads any bytes with a machine that stands either between
characters or inside a sequence whose next byte must lie in a known range.  A byte outside that range
ends the sequence as ill-formed and is then read from between characters, so each ill-formed stretch
is the longest one that could still have become a character.  `decodeLossy` puts U+FFFD in place of
each such stretch; `decode?` refuses them.
-/
import Docblocks.Text.Basic

namespace Docblocks.Text.Utf8

/-! ## Writing -/

/-- The UTF-8 bytes of one character. -/
def encodeChar (c : Char) : List UInt8 :=
  let n := c.toNat
  if n < 0x80 then [n.toUInt8]
  else if n < 0x800 then [(0xC0 + n / 0x40).toUInt8, (0x80 + n % 0x40).toUInt8]
  else if n < 0x10000 then
    [(0xE0 + n / 0x1000).toUInt8, (0x80 + n / 0x40 % 0x40).toUInt8, (0x80 + n % 0x40).toUInt8]
  else
    [(0xF0 + n / 0x40000).toUInt8, (0x80 + n / 0x1000 % 0x40).toUInt8,
     (0x80 + n / 0x40 % 0x40).toUInt8, (0x80 + n % 0x40).toUInt8]

/-- The UTF-8 bytes of a text. -/
def encode (s : Text) : List UInt8 :=
  s.flatMap encodeChar

/-- How many bytes a text takes. -/
def byteLength (s : Text) : Nat :=
  (encode s).length

/-! ## Reading -/

/-- A sequence under way: its value so far, how many bytes it still needs, and between which bounds
the next one has to lie. -/
structure Sequence where
  value : Nat
  owed : Nat
  low : Nat
  high : Nat
  deriving DecidableEq, Repr

/-- What a byte read between characters brings: a character, a sequence that goes on, or neither. -/
def start (b : UInt8) : List (Option Char) × Option Sequence :=
  let n := b.toNat
  if n < 0x80 then ([some (Char.ofNat n)], none)
  else if n < 0xC2 then ([none], none)
  else if n < 0xE0 then ([], some ⟨n - 0xC0, 1, 0x80, 0xBF⟩)
  else if n = 0xE0 then ([], some ⟨0, 2, 0xA0, 0xBF⟩)
  else if n = 0xED then ([], some ⟨0xD, 2, 0x80, 0x9F⟩)
  else if n < 0xF0 then ([], some ⟨n - 0xE0, 2, 0x80, 0xBF⟩)
  else if n = 0xF0 then ([], some ⟨0, 3, 0x90, 0xBF⟩)
  else if n < 0xF4 then ([], some ⟨n - 0xF0, 3, 0x80, 0xBF⟩)
  else if n = 0xF4 then ([], some ⟨4, 3, 0x80, 0x8F⟩)
  else ([none], none)

/-- One byte of the machine: what is put out, where `none` stands for an ill-formed stretch, and the
sequence that is then under way. -/
def step : Option Sequence → UInt8 → List (Option Char) × Option Sequence
  | none, b => start b
  | some q, b =>
    if q.low ≤ b.toNat ∧ b.toNat ≤ q.high then
      let value := q.value * 0x40 + b.toNat % 0x40
      if q.owed ≤ 1 then ([some (Char.ofNat value)], none)
      else ([], some ⟨value, q.owed - 1, 0x80, 0xBF⟩)
    else (none :: (start b).1, (start b).2)

/-- Runs the machine from a given state; a sequence still under way at the end is ill-formed. -/
def decodeFrom : Option Sequence → List UInt8 → List (Option Char)
  | none, [] => []
  | some _, [] => [none]
  | q, b :: bs => (step q b).1 ++ decodeFrom (step q b).2 bs

/-- The characters of a byte string, with `none` for each ill-formed stretch. -/
def decode (bs : List UInt8) : List (Option Char) :=
  decodeFrom none bs

/-- The replacement character, U+FFFD. -/
def replacement : Char := '\uFFFD'

/-- Reads bytes as text, with one replacement character for each ill-formed stretch. -/
def decodeLossy (bs : List UInt8) : Text :=
  (decode bs).map (·.getD replacement)

/-- Reads bytes as text, and refuses bytes that are not well-formed. -/
def decode? (bs : List UInt8) : Option Text :=
  (decode bs).mapM id

end Docblocks.Text.Utf8
