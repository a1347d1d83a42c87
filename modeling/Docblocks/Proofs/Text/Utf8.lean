/-
# Docblocks.Proofs.Text.Utf8 — the bytes of a text are read back as that text.

Inside a sequence every byte is one more digit of the value, in base 64.  One lemma for each kind of byte
says where the machine stands after it (`decodeFrom_ascii`, `decodeFrom_two`, `decodeFrom_three`,
`decodeFrom_four`, `decodeFrom_within`, `decodeFrom_last`); the bytes of a character are such bytes in a
row, and their digits make up its number.
-/
import Docblocks.Proofs.Text.Order

namespace Docblocks.Text.Utf8

variable {n m value owed : Nat} (bs : List UInt8)

/-! ## One byte after the other -/

theorem decodeFrom_ascii (h : n < 0x80) :
    decodeFrom none (n.toUInt8 :: bs) = some (Char.ofNat n) :: decodeFrom none bs := by
  have hn : n.toUInt8.toNat = n := toNat_toUInt8 (by omega)
  rw [decodeFrom, step, start, hn, if_pos h]
  rfl

/-- A first byte of two leaves one byte owed. -/
theorem decodeFrom_two (hlow : 0xC2 ≤ n) (hhigh : n < 0xE0) :
    decodeFrom none (n.toUInt8 :: bs) =
      decodeFrom (some ⟨n - 0xC0, 1, 0x80, 0xBF⟩) bs := by
  have hn : n.toUInt8.toNat = n := toNat_toUInt8 (by omega)
  rw [decodeFrom, step, start, hn, if_neg (by omega), if_neg (by omega), if_pos hhigh]
  rfl

/-- A byte within its bounds that is not the last one of its sequence. -/
theorem decodeFrom_within {low high : Nat} (hlow : low ≤ n) (hhigh : n ≤ high) (hn : n < 256)
    (howed : 1 < owed) :
    decodeFrom (some ⟨value, owed, low, high⟩) (n.toUInt8 :: bs) =
      decodeFrom (some ⟨value * 0x40 + n % 0x40, owed - 1, 0x80, 0xBF⟩) bs := by
  have hbyte : n.toUInt8.toNat = n := toNat_toUInt8 hn
  rw [decodeFrom, step]
  simp only [hbyte, if_pos (And.intro hlow hhigh), if_neg (Nat.not_le.2 howed)]
  rfl

/-- The last byte of a sequence completes a character. -/
theorem decodeFrom_last (hlow : 0x80 ≤ n) (hhigh : n ≤ 0xBF) :
    decodeFrom (some ⟨value, 1, 0x80, 0xBF⟩) (n.toUInt8 :: bs) =
      some (Char.ofNat (value * 0x40 + n % 0x40)) :: decodeFrom none bs := by
  have hbyte : n.toUInt8.toNat = n := toNat_toUInt8 (by omega)
  rw [decodeFrom, step]
  simp only [hbyte, if_pos (And.intro hlow hhigh), if_pos (Nat.le_refl 1)]
  rfl

/-- The first two bytes of three: no value below 0x800, and no surrogate. -/
theorem decodeFrom_three (hlow : 0xE0 ≤ n) (hhigh : n < 0xF0) (hmlow : 0x80 ≤ m) (hmhigh : m ≤ 0xBF)
    (hshort : n = 0xE0 → 0xA0 ≤ m) (hsurrogate : n = 0xED → m ≤ 0x9F) :
    decodeFrom none (n.toUInt8 :: m.toUInt8 :: bs) =
      decodeFrom (some ⟨(n - 0xE0) * 0x40 + m % 0x40, 1, 0x80, 0xBF⟩) bs := by
  have hn : n.toUInt8.toNat = n := toNat_toUInt8 (by omega)
  rw [decodeFrom, step, start, hn, if_neg (by omega), if_neg (by omega), if_neg (by omega)]
  by_cases hE0 : n = 0xE0
  · rw [if_pos hE0, List.nil_append, decodeFrom_within bs (hshort hE0) hmhigh (by omega) (by omega), hE0]
  · rw [if_neg hE0]
    by_cases hED : n = 0xED
    · rw [if_pos hED, List.nil_append,
        decodeFrom_within bs hmlow (hsurrogate hED) (by omega) (by omega), hED]
    · rw [if_neg hED, if_pos hhigh, List.nil_append,
        decodeFrom_within bs hmlow hmhigh (by omega) (by omega)]

/-- The first two bytes of four: no value below 0x10000, and none above 0x10FFFF. -/
theorem decodeFrom_four (hlow : 0xF0 ≤ n) (hhigh : n ≤ 0xF4) (hmlow : 0x80 ≤ m) (hmhigh : m ≤ 0xBF)
    (hshort : n = 0xF0 → 0x90 ≤ m) (hlarge : n = 0xF4 → m ≤ 0x8F) :
    decodeFrom none (n.toUInt8 :: m.toUInt8 :: bs) =
      decodeFrom (some ⟨(n - 0xF0) * 0x40 + m % 0x40, 2, 0x80, 0xBF⟩) bs := by
  have hn : n.toUInt8.toNat = n := toNat_toUInt8 (by omega)
  rw [decodeFrom, step, start, hn, if_neg (by omega), if_neg (by omega), if_neg (by omega),
    if_neg (by omega), if_neg (by omega), if_neg (by omega)]
  by_cases hF0 : n = 0xF0
  · rw [if_pos hF0, List.nil_append, decodeFrom_within bs (hshort hF0) hmhigh (by omega) (by omega), hF0]
  · rw [if_neg hF0]
    by_cases hF4 : n = 0xF4
    · rw [if_neg (by omega), if_pos hF4, List.nil_append,
        decodeFrom_within bs hmlow (hlarge hF4) (by omega) (by omega), hF4]
    · rw [if_pos (by omega), List.nil_append,
        decodeFrom_within bs hmlow hmhigh (by omega) (by omega)]

/-! ## Characters and texts -/

theorem toNat_valid (c : Char) : c.toNat < 0xD800 ∨ 0xDFFF < c.toNat ∧ c.toNat < 0x110000 := by
  have hvalid := c.valid
  simp only [UInt32.isValidChar, Nat.isValidChar] at hvalid
  show c.val.toNat < 0xD800 ∨ 0xDFFF < c.val.toNat ∧ c.val.toNat < 0x110000
  omega

/-- The bytes of a character are read as that character, whatever follows. -/
theorem decodeFrom_encodeChar (c : Char) :
    decodeFrom none (encodeChar c ++ bs) = some c :: decodeFrom none bs := by
  have hvalid := toNat_valid c
  have hchar : ∀ k, k = c.toNat → Char.ofNat k = c := by
    intro k hk
    rw [hk, Char.ofNat_toNat]
  simp only [encodeChar]
  -- Four lengths; in each the side conditions are bounds of the character's number.
  split_ifs with h₁ h₂ h₃
  · rw [List.singleton_append, decodeFrom_ascii bs h₁, hchar _ rfl]
  · simp only [List.cons_append, List.nil_append]
    rw [decodeFrom_two _ (by omega) (by omega), decodeFrom_last _ (by omega) (by omega),
      hchar _ (by omega)]
  · simp only [List.cons_append, List.nil_append]
    rw [decodeFrom_three _ (by omega) (by omega) (by omega) (by omega) (by omega) (by omega),
      decodeFrom_last _ (by omega) (by omega), hchar _ (by omega)]
  · simp only [List.cons_append, List.nil_append]
    rw [decodeFrom_four _ (by omega) (by omega) (by omega) (by omega) (by omega) (by omega),
      decodeFrom_within _ (by omega) (by omega) (by omega) (by omega),
      decodeFrom_last _ (by omega) (by omega), hchar _ (by omega)]

theorem decode_encode (s : Text) : decode (encode s) = s.map some := by
  unfold decode
  induction s with
  | nil => rfl
  | cons c s ih => rw [encode_cons, decodeFrom_encodeChar, ih, List.map_cons]

/-- The bytes of a text are well-formed, and are the bytes of no other text. -/
theorem decode?_encode (s : Text) : decode? (encode s) = some s := by
  rw [decode?, decode_encode, List.mapM_map]
  show s.mapM (fun c => (pure c : Option Char)) = some s
  rw [List.mapM_pure, List.map_id']
  rfl

end Docblocks.Text.Utf8
