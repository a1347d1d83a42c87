/-
# Docblocks.Decimal.Shortest — the fewest digits that read back.

A binary floating-point value stands for every real number that rounds to it.  Among the decimals in
that interval, the one on the coarsest power of ten is taken, and of two of those the nearer one; a tie
goes to the even number.  All of it is exact arithmetic on natural numbers.
-/

namespace Docblocks

/-- The decimal `digits · 10 ^ exponent`. -/
structure Decimal where
  digits : Nat
  exponent : Int
  deriving DecidableEq, Repr

namespace Decimal

/-- The positive value `significand · 2 ^ exponent` among its neighbours of the same format. -/
structure Binary where
  significand : Nat
  exponent : Int
  /-- Whether the neighbour below is half as far away as the one above. -/
  narrow : Bool
  deriving DecidableEq, Repr

/-- The numerator of `x · b ^ e` for a whole `x`. -/
def scaleUp (b : Nat) (e : Int) (x : Nat) : Nat :=
  x * Nat.pow b e.toNat

/-- The denominator of `b ^ e`. -/
def scaleDown (b : Nat) (e : Int) : Nat :=
  Nat.pow b (-e).toNat

/-- The whole number `d`, if any, for which `d · 10 ^ k` rounds to the value; of two, the nearer. -/
def Binary.onGrid? (v : Binary) (k : Int) : Option Nat :=
  let scale := fun x => scaleUp 10 (-k) (scaleUp 2 (v.exponent - 2) x)
  let unit := scaleDown 10 (-k) * scaleDown 2 (v.exponent - 2)
  let value := scale (4 * v.significand)
  let low := scale (4 * v.significand - if v.narrow then 1 else 2)
  let high := scale (4 * v.significand + 2)
  let readsBack := fun d =>
    if v.significand % 2 = 0 then low ≤ d * unit ∧ d * unit ≤ high
    else low < d * unit ∧ d * unit < high
  let below := value / unit
  if readsBack below ∧ readsBack (below + 1) then
    let twice := 2 * (value - below * unit)
    if twice < unit ∨ twice = unit ∧ below % 2 = 0 then some below else some (below + 1)
  else if readsBack below then some below
  else if readsBack (below + 1) then some (below + 1)
  else none

/-- The exponents that the shortest decimal of a double can have, the coarsest grid first. -/
def grids : List Int :=
  (List.range 634).map fun i : Nat => 309 - (i : Int)

/-- The shortest decimal that rounds to the value. -/
def Binary.shortest (v : Binary) : Decimal :=
  (grids.findSome? fun k => (v.onGrid? k).map (⟨·, k⟩)).getD ⟨0, 0⟩

end Decimal

end Docblocks
