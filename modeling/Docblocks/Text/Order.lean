/-
# Docblocks.Text.Order — the order of texts.

Texts are compared by their UTF-8 bytes, byte by byte, and a text that another one continues comes
first.
-/
import Docblocks.Text.Utf8

namespace Docblocks.Text

/-- Compares byte strings from the left; a byte string that the other continues comes first. -/
def compareBytes : List UInt8 → List UInt8 → Ordering
  | [], [] => .eq
  | [], _ :: _ => .lt
  | _ :: _, [] => .gt
  | a :: as, b :: bs =>
    if a.toNat < b.toNat then .lt
    else if b.toNat < a.toNat then .gt
    else compareBytes as bs

/-- Compares two texts by their UTF-8 bytes. -/
def order (a b : Text) : Ordering :=
  compareBytes (Utf8.encode a) (Utf8.encode b)

/-- Whether `a` stands no later than `b`. -/
def le (a b : Text) : Bool :=
  order a b != .gt

/-- Texts in ascending order, equal ones kept. -/
def sort (ts : List Text) : List Text :=
  ts.mergeSort le

end Docblocks.Text
