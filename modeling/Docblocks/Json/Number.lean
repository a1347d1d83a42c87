/-
# Docblocks.Json.Number — numbers in JSON texts.

A number without a fraction or an exponent is an integer if it fits into 64 bits, with or without a
sign.  Every other number is a double: its digits are taken as one whole significand as long as that
fits into 64 bits, digits after that count only for the power of ten, and the significand is multiplied
or divided by that power once.  A number too large for a double is not accepted.
-/
import Docblocks.Decimal.Shortest
import Docblocks.Text.Basic

namespace Docblocks.Json

/-- Why a JSON text cannot be read: it ends too early, or it has something that does not belong. -/
inductive Fault
  | ended
  | malformed
  deriving DecidableEq, Repr

/-- A number, with a double given by its bits. -/
inductive Number
  | integer (value : Int)
  | double (bits : UInt64)
  deriving DecidableEq, Repr

namespace Number

/-! ## Reading -/

/-- The largest significand. -/
def significandLimit : Nat := Nat.pow 2 64 - 1

/-- The value of a digit. -/
def digit (c : Char) : Nat :=
  c.toNat - '0'.toNat

/-- Takes digits into a significand as long as it stays within the limit; also gives the digits that
are left. -/
def gather : Nat → Text → Nat × Text
  | n, [] => (n, [])
  | n, c :: s =>
    if n * 10 + digit c ≤ significandLimit then gather (n * 10 + digit c) s else (n, c :: s)

/-- A power of ten as a double. -/
def powerOfTen (n : Nat) : Float :=
  Float.ofScientific 1 false n

/-- Divides by a power of ten, in steps of at most 308.  Two full steps leave nothing but zero of any
significand, so the number of steps that are tried does not matter beyond that. -/
def divide : Nat → Float → Nat → Float
  | 0, f, _ => f
  | steps + 1, f, n =>
    if n ≤ 308 then f / powerOfTen n
    else if f == 0 then f
    else divide steps (f / powerOfTen 308) (n - 308)

/-- The double `significand · 10 ^ exponent`, unless it is too large. -/
def toDouble? (significand : Nat) (exponent : Int) : Option Float :=
  let f := significand.toUInt64.toFloat
  if exponent < 0 then some (divide 4 f (-exponent).toNat)
  else if significand = 0 then some f
  else if 308 < exponent then none
  else
    let product := f * powerOfTen exponent.toNat
    if product.isInf then none else some product

/-- The number with the given sign, significand and power of ten. -/
def ofParts (negative : Bool) (significand : Nat) (exponent : Int) : Except Fault Number :=
  match toDouble? significand exponent with
  | none => .error .malformed
  | some f => .ok (.double (if negative then -f else f).toBits)

/-- The digits that a text starts with, at least one, and what follows. -/
def someDigits (s : Text) : Except Fault (Text × Text) :=
  match s.takeWhile Char.isDigit with
  | [] => .error (if s.isEmpty then .ended else .malformed)
  | ds => .ok (ds, s.dropWhile Char.isDigit)

/-- The whole part: a zero alone, or digits that do not start with a zero. -/
def wholePart (s : Text) : Except Fault (Text × Text) := do
  let (ds, rest) ← someDigits s
  if ds.head? = some '0' ∧ ds.length ≠ 1 then throw .malformed
  return (ds, rest)

/-- The value of digits without a limit. -/
def natOf (ds : Text) : Nat :=
  ds.foldl (fun n c => n * 10 + digit c) 0

/-- The exponent that a text starts with, with its sign, and what follows. -/
def exponentPart (s : Text) : Except Fault (Int × Text) := do
  match s with
  | '-' :: s =>
    let (ds, rest) ← someDigits s
    return (-(natOf ds : Int), rest)
  | '+' :: s =>
    let (ds, rest) ← someDigits s
    return ((natOf ds : Int), rest)
  | s =>
    let (ds, rest) ← someDigits s
    return ((natOf ds : Int), rest)

/-- A whole number as it is: an integer where 64 bits suffice, minus zero and all others as doubles. -/
def ofWhole (negative : Bool) (n : Nat) : Except Fault Number :=
  if !negative then .ok (.integer n)
  else if n = 0 ∨ Nat.pow 2 63 < n then ofParts true n 0
  else .ok (.integer (-(n : Int)))

/-- Reads a number after its sign. -/
def read (negative : Bool) (s : Text) : Except Fault (Number × Text) := do
  let (whole, rest) ← wholePart s
  let (n, dropped) := gather 0 whole
  let (n, exponent, fractional, rest) ←
    match rest with
    | '.' :: rest => do
      let (fraction, rest) ← someDigits rest
      let (m, ignored) := gather n fraction
      let exponent := (dropped.length : Int) - (fraction.length - ignored.length : Nat)
      pure (m, exponent, true, rest)
    | rest => pure (n, (dropped.length : Int), !dropped.isEmpty, rest)
  match rest with
  | c :: rest' =>
    if c = 'e' ∨ c = 'E' then
      let (power, rest) ← exponentPart rest'
      return (← ofParts negative n (exponent + power), rest)
    else if fractional then return (← ofParts negative n exponent, rest)
    else return (← ofWhole negative n, rest)
  | [] =>
    if fractional then return (← ofParts negative n exponent, rest)
    else return (← ofWhole negative n, rest)

/-! ## Writing -/

/-- The sign bit of a double and, unless it is zero, its value. -/
def split (bits : UInt64) : Bool × Option Decimal.Binary :=
  let n := bits.toNat
  let field : Nat := n / Nat.pow 2 52 % Nat.pow 2 11
  let fraction : Nat := n % Nat.pow 2 52
  let value :=
    if field = 0 then
      if fraction = 0 then none else some ⟨fraction, -1074, false⟩
    else some ⟨Nat.pow 2 52 + fraction, (field : Int) - 1075, fraction = 0 && 1 < field⟩
  (Nat.pow 2 63 ≤ n, value)

/-- The text of a whole number. -/
def wholeText (n : Int) : Text :=
  if n < 0 then '-' :: Nat.toDigits 10 n.natAbs else Nat.toDigits 10 n.natAbs

/-- The text of an exponent, always with a sign. -/
def exponentText (n : Int) : Text :=
  (if n < 0 then '-' else '+') :: Nat.toDigits 10 n.natAbs

/-- A decimal in full between 0.00001 and 10000000000000000, with a fraction in any case; outside of
that with one digit before the point and an exponent. -/
def decimalText (d : Decimal) : Text :=
  let ds := Nat.toDigits 10 d.digits
  let point := (ds.length : Int) + d.exponent
  if 0 ≤ d.exponent ∧ point ≤ 16 then
    ds ++ List.replicate d.exponent.toNat '0' ++ ['.', '0']
  else if 0 < point ∧ point ≤ 16 then ds.take point.toNat ++ '.' :: ds.drop point.toNat
  else if -5 < point ∧ point ≤ 0 then '0' :: '.' :: List.replicate (-point).toNat '0' ++ ds
  else
    let fraction := if ds.length = 1 then [] else '.' :: ds.drop 1
    ds.take 1 ++ fraction ++ 'e' :: exponentText (point - 1)

/-- The text of a double. -/
def doubleText (bits : UInt64) : Text :=
  let (negative, value) := split bits
  let size :=
    match value with
    | none => ['0', '.', '0']
    | some v => decimalText v.shortest
  if negative then '-' :: size else size

end Number

end Docblocks.Json
