/-
# Docblocks.Text.Basic — text as a list of scalar values.

Everything the library reads and writes is text before it is bytes.  Keeping it as a list of Unicode
scalar values makes each rule below a recursion on the data: nothing is indexed, and a rest is always
a tail.  Bytes appear only in `Docblocks.Text.Utf8`.
-/

namespace Docblocks

/-- A text is a list of Unicode scalar values. -/
abbrev Text := List Char

namespace Text

/-! ## What a text starts with -/

/-- `after? m s` is what follows `m` at the start of `s`, and nothing when `s` does not start with
`m`. -/
def after? : Text → Text → Option Text
  | [], s => some s
  | _ :: _, [] => none
  | m :: ms, c :: s => if m = c then after? ms s else none

/-- A text starts with `m` when something, possibly empty, follows `m` there. -/
def startsWith (m s : Text) : Bool :=
  (after? m s).isSome

theorem after?_eq_some_iff {m s r : Text} : after? m s = some r ↔ s = m ++ r := by
  induction m generalizing s with
  | nil => simp [after?]
  | cons a ms ih =>
    cases s with
    | nil => simp [after?]
    | cons c s =>
      by_cases h : a = c
      · subst h
        simp [after?, ih]
      · simp [after?, h, Ne.symm h]

@[simp]
theorem after?_append (m r : Text) : after? m (m ++ r) = some r :=
  after?_eq_some_iff.2 rfl

/-! ## The last place of a character -/

/-- Cuts a text around the last `d`, which neither part keeps; nothing when there is no `d`. -/
def cutLast? (d : Char) : Text → Option (Text × Text)
  | [] => none
  | c :: s =>
    match cutLast? d s with
    | some (u, v) => some (c :: u, v)
    | none => if c = d then some ([], s) else none

theorem cutLast?_eq_none_iff {d : Char} {s : Text} : cutLast? d s = none ↔ d ∉ s := by
  induction s with
  | nil => simp [cutLast?]
  | cons c s ih =>
    unfold cutLast?
    cases h : cutLast? d s with
    | none =>
      have hs : d ∉ s := ih.1 h
      by_cases hc : c = d
      · simp [hc]
      · simp [hc, hs, Ne.symm hc]
    | some uv =>
      have hs : d ∈ s := by
        false_or_by_contra
        rename_i hn
        rw [ih.2 hn] at h
        cases h
      simp [hs]

/-- The two parts and the character between them are the whole text. -/
theorem eq_of_cutLast? {d : Char} {s u v : Text} (h : cutLast? d s = some (u, v)) :
    s = u ++ d :: v := by
  induction s generalizing u with
  | nil => simp [cutLast?] at h
  | cons c s ih =>
    unfold cutLast? at h
    cases hs : cutLast? d s with
    | none =>
      rw [hs] at h
      by_cases hc : c = d
      · simp only [hc, if_true, Option.some.injEq, Prod.mk.injEq] at h
        obtain ⟨rfl, rfl⟩ := h
        simp [hc]
      · simp [hc] at h
    | some uv =>
      rw [hs] at h
      obtain ⟨u', v'⟩ := uv
      simp only [Option.some.injEq, Prod.mk.injEq] at h
      obtain ⟨rfl, rfl⟩ := h
      simp [ih hs]

/-- Nothing after the cut is the character cut at. -/
theorem not_mem_of_cutLast? {d : Char} {s u v : Text} (h : cutLast? d s = some (u, v)) :
    d ∉ v := by
  induction s generalizing u with
  | nil => simp [cutLast?] at h
  | cons c s ih =>
    unfold cutLast? at h
    cases hs : cutLast? d s with
    | none =>
      rw [hs] at h
      by_cases hc : c = d
      · simp only [hc, if_true, Option.some.injEq, Prod.mk.injEq] at h
        obtain ⟨rfl, rfl⟩ := h
        exact cutLast?_eq_none_iff.1 hs
      · simp [hc] at h
    | some uv =>
      rw [hs] at h
      obtain ⟨u', v'⟩ := uv
      simp only [Option.some.injEq, Prod.mk.injEq] at h
      obtain ⟨rfl, rfl⟩ := h
      exact ih hs

/-! ## White space -/

/-- The scalar values with the property White_Space, as inclusive ranges in ascending order.  The byte
order mark U+FEFF and the zero-width space U+200B are not among them. -/
def blankRanges : List (Nat × Nat) :=
  [(0x0009, 0x000D), (0x0020, 0x0020), (0x0085, 0x0085), (0x00A0, 0x00A0), (0x1680, 0x1680),
   (0x2000, 0x200A), (0x2028, 0x2029), (0x202F, 0x202F), (0x205F, 0x205F), (0x3000, 0x3000)]

/-- A blank is a character in one of the ranges of `blankRanges`. -/
def isBlank (c : Char) : Bool :=
  blankRanges.any fun r => r.1 ≤ c.toNat && c.toNat ≤ r.2

/-- Drops the blanks a text starts with. -/
def trimStart (s : Text) : Text :=
  s.dropWhile isBlank

end Text

end Docblocks
