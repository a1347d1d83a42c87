/-
# Docblocks.Proofs.Text.Order — the order of texts is the order of their characters.

Texts are compared by their UTF-8 bytes.  UTF-8 keeps the order of characters (`compareBytes_encodeChar`)
and no encoding begins another one, so the bytes give the lexicographic order of the characters, which is
a linear order.  Everything sorted by bytes is thereby sorted in that order.  `scalarOrder` is that order
computed without any bytes, and `order_eq_scalarOrder` says that it is the same.
-/
import Docblocks.Text.Order
import Mathlib.Data.Char
import Mathlib.Data.List.Lex

namespace Docblocks.Text

/-! ## Bytes -/

theorem compareBytes_append (p xs ys : List UInt8) :
    compareBytes (p ++ xs) (p ++ ys) = compareBytes xs ys := by
  induction p with
  | nil => rfl
  | cons b p ih => simp [compareBytes, ih]

theorem compareBytes_self (xs : List UInt8) : compareBytes xs xs = .eq := by
  induction xs with
  | nil => rfl
  | cons b xs ih => simp [compareBytes, ih]

theorem compareBytes_swap (xs ys : List UInt8) :
    (compareBytes xs ys).swap = compareBytes ys xs := by
  induction xs generalizing ys with
  | nil => cases ys <;> rfl
  | cons a xs ih =>
    cases ys with
    | nil => rfl
    | cons b ys =>
      rw [compareBytes, compareBytes]
      rcases Nat.lt_trichotomy a.toNat b.toNat with h | h | h
      · rw [if_pos h, if_neg (Nat.lt_asymm h), if_pos h]
        rfl
      · rw [if_neg (Nat.not_lt.2 h.ge), if_neg (Nat.not_lt.2 h.le), if_neg (Nat.not_lt.2 h.le),
          if_neg (Nat.not_lt.2 h.ge), ih]
      · rw [if_neg (Nat.lt_asymm h), if_pos h, if_pos h]
        rfl

theorem toNat_toUInt8 {n : Nat} (h : n < 256) : n.toUInt8.toNat = n := by
  simp [Nat.mod_eq_of_lt h]

theorem compareBytes_cons_of_lt {m n : Nat} (hn : n < 256) (h : m < n) (xs ys : List UInt8) :
    compareBytes (m.toUInt8 :: xs) (n.toUInt8 :: ys) = .lt := by
  rw [compareBytes, toNat_toUInt8 hn, toNat_toUInt8 (by omega), if_pos h]

theorem compareBytes_cons_of_le {m n : Nat} (hn : n < 256) (h : m ≤ n) {xs ys : List UInt8}
    (hrest : m = n → compareBytes xs ys = .lt) :
    compareBytes (m.toUInt8 :: xs) (n.toUInt8 :: ys) = .lt := by
  rcases Nat.lt_or_eq_of_le h with hlt | heq
  · exact compareBytes_cons_of_lt hn hlt xs ys
  · rw [compareBytes, heq, if_neg (Nat.lt_irrefl _), if_neg (Nat.lt_irrefl _)]
    exact hrest heq

/-- The bytes of an earlier character come first, whatever follows the two characters. -/
theorem compareBytes_encodeChar {c d : Char} (h : c < d) (xs ys : List UInt8) :
    compareBytes (Utf8.encodeChar c ++ xs) (Utf8.encodeChar d ++ ys) = .lt := by
  have hcd : c.toNat < d.toNat := h
  have hd : d.toNat < 0x110000 := by
    have := d.valid
    simp only [UInt32.isValidChar, Nat.isValidChar] at this
    show d.val.toNat < 0x110000
    omega
  simp only [Utf8.encodeChar]
  -- A longer encoding starts with a larger byte, so the first byte decides unless both characters take
  -- the same number of bytes; then the bytes are the digits of two numbers of the same length.
  split_ifs <;> try (exfalso; omega)
  · exact compareBytes_cons_of_lt (by omega) (by omega) _ _
  · exact compareBytes_cons_of_lt (by omega) (by omega) _ _
  · exact compareBytes_cons_of_lt (by omega) (by omega) _ _
  · exact compareBytes_cons_of_lt (by omega) (by omega) _ _
  · exact compareBytes_cons_of_le (by omega) (by omega) fun _ =>
      compareBytes_cons_of_lt (by omega) (by omega) _ _
  · exact compareBytes_cons_of_lt (by omega) (by omega) _ _
  · exact compareBytes_cons_of_lt (by omega) (by omega) _ _
  · exact compareBytes_cons_of_le (by omega) (by omega) fun _ =>
      compareBytes_cons_of_le (by omega) (by omega) fun _ =>
        compareBytes_cons_of_lt (by omega) (by omega) _ _
  · exact compareBytes_cons_of_lt (by omega) (by omega) _ _
  · exact compareBytes_cons_of_le (by omega) (by omega) fun _ =>
      compareBytes_cons_of_le (by omega) (by omega) fun _ =>
        compareBytes_cons_of_le (by omega) (by omega) fun _ =>
          compareBytes_cons_of_lt (by omega) (by omega) _ _

theorem encodeChar_ne_nil (c : Char) : Utf8.encodeChar c ≠ [] := by
  simp only [Utf8.encodeChar]
  split_ifs <;> simp

/-! ## Texts -/

theorem encode_cons (c : Char) (s : Text) :
    Utf8.encode (c :: s) = Utf8.encodeChar c ++ Utf8.encode s := by
  rw [Utf8.encode, List.flatMap_cons]
  rfl

theorem order_of_lt {a b : Text} (h : a < b) : order a b = .lt := by
  unfold order
  induction a generalizing b with
  | nil =>
    cases b with
    | nil => exact absurd h (lt_irrefl _)
    | cons d b =>
      rw [encode_cons]
      cases hd : Utf8.encodeChar d with
      | nil => exact absurd hd (encodeChar_ne_nil d)
      | cons x xs => rfl
  | cons c a ih =>
    cases b with
    | nil => exact absurd h (List.not_lt_nil _)
    | cons d b =>
      rw [encode_cons, encode_cons]
      rcases List.cons_lt_cons_iff.1 h with hcd | ⟨rfl, hab⟩
      · exact compareBytes_encodeChar hcd _ _
      · rw [compareBytes_append]
        exact ih hab

theorem order_self (a : Text) : order a a = .eq :=
  compareBytes_self _

theorem order_of_gt {a b : Text} (h : b < a) : order a b = .gt := by
  rw [order, ← compareBytes_swap, ← order, order_of_lt h]
  rfl

theorem order_eq_lt_iff {a b : Text} : order a b = .lt ↔ a < b := by
  refine ⟨fun h => ?_, order_of_lt⟩
  rcases lt_trichotomy a b with hlt | rfl | hgt
  · exact hlt
  · rw [order_self] at h
    cases h
  · rw [order_of_gt hgt] at h
    cases h

theorem order_eq_eq_iff {a b : Text} : order a b = .eq ↔ a = b := by
  refine ⟨fun h => ?_, fun h => h ▸ order_self a⟩
  rcases lt_trichotomy a b with hlt | heq | hgt
  · rw [order_of_lt hlt] at h
    cases h
  · exact heq
  · rw [order_of_gt hgt] at h
    cases h

theorem order_eq_gt_iff {a b : Text} : order a b = .gt ↔ b < a := by
  refine ⟨fun h => ?_, order_of_gt⟩
  rcases lt_trichotomy a b with hlt | rfl | hgt
  · rw [order_of_lt hlt] at h
    cases h
  · rw [order_self] at h
    cases h
  · exact hgt

theorem le_iff {a b : Text} : le a b = true ↔ a ≤ b := by
  rw [le, bne_iff_ne, Ne, order_eq_gt_iff, not_lt]

/-! ## Characters in place of bytes -/

/-- Compares two texts by the numbers of their characters, from the left; a text that the other continues
comes first. -/
def scalarOrder (a b : Text) : Ordering :=
  List.compareLex compare (a.map Char.toNat) (b.map Char.toNat)

/-- The first characters decide, unless they are equal. -/
theorem order_cons_cons (c d : Char) (a b : Text) :
    order (c :: a) (d :: b) = (compare c.toNat d.toNat).then (order a b) := by
  rcases lt_trichotomy c d with hlt | rfl | hgt
  · have hnum : compare c.toNat d.toNat = .lt := Nat.compare_eq_lt.2 hlt
    rw [order_of_lt (List.cons_lt_cons_iff.2 (Or.inl hlt)), hnum]
    rfl
  · have hnum : compare c.toNat c.toNat = .eq := Nat.compare_eq_eq.2 rfl
    rw [order, encode_cons, encode_cons, compareBytes_append, hnum]
    rfl
  · have hnum : compare c.toNat d.toNat = .gt := Nat.compare_eq_gt.2 hgt
    rw [order_of_gt (List.cons_lt_cons_iff.2 (Or.inl hgt)), hnum]
    rfl

theorem order_eq_scalarOrder (a b : Text) : order a b = scalarOrder a b := by
  unfold scalarOrder
  induction a generalizing b with
  | nil =>
    cases b with
    | nil => rfl
    | cons d b => exact order_of_lt (List.nil_lt_cons d b)
  | cons c a ih =>
    cases b with
    | nil => exact order_of_gt (List.nil_lt_cons c a)
    | cons d b => rw [order_cons_cons, ih, List.map_cons, List.map_cons, List.compareLex_cons_cons]

theorem order_append_cons (a : Text) (c : Char) (s : Text) : order a (a ++ c :: s) = .lt := by
  induction a with
  | nil => exact order_of_lt (List.nil_lt_cons c s)
  | cons d a ih =>
    have hnum : compare d.toNat d.toNat = .eq := Nat.compare_eq_eq.2 rfl
    rw [List.cons_append, order_cons_cons, ih, hnum]
    rfl

instance : Std.OrientedCmp order where
  eq_swap := by
    intro a b
    exact (compareBytes_swap _ _).symm

instance : Std.TransCmp order where
  isLE_trans := by
    intro a b c hab hbc
    have hle : ∀ a b : Text, (order a b).isLE = true ↔ a ≤ b := by
      intro a b
      rw [← le_iff, le]
      cases order a b <;> decide
    rw [hle] at hab hbc ⊢
    exact le_trans hab hbc

instance : Std.LawfulEqCmp order where
  eq_of_compare := order_eq_eq_iff.1

end Docblocks.Text
