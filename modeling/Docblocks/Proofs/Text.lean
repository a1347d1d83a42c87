/-
# Docblocks.Proofs.Text — what cutting and trimming do to texts put together from parts.

The definitions of `Docblocks.Text` recurse from the left over one text.  The lemmas here say what they
give on a concatenation, so that later proofs never open them: a mark in front, a slash in the middle,
lines with their feeds.  Where a statement counts characters, the lemmas on places say at which number a
run of a class ends, and that what is found first is found leftmost.
-/
import Docblocks.Text.Lines
import Mathlib.Data.List.Infix
import Mathlib.Data.List.TakeWhile

namespace Docblocks.Text

/-! ## What a text starts with -/

theorem startsWith_iff {m s : Text} : startsWith m s = true ↔ ∃ r, s = m ++ r := by
  unfold startsWith
  rw [Option.isSome_iff_exists]
  exact exists_congr fun r => after?_eq_some_iff

@[simp]
theorem startsWith_self (m : Text) : startsWith m m = true :=
  startsWith_iff.2 ⟨[], (List.append_nil m).symm⟩

/-- A text that is not empty and does not start with a blank. -/
def Solid (s : Text) : Prop :=
  ∃ c r, s = c :: r ∧ isBlank c = false

theorem Solid.append {s : Text} (h : Solid s) (r : Text) : Solid (s ++ r) := by
  obtain ⟨c, s', rfl, hc⟩ := h
  exact ⟨c, s' ++ r, rfl, hc⟩

theorem Solid.trimStart_eq {s : Text} (h : Solid s) : trimStart s = s := by
  obtain ⟨c, r, rfl, hc⟩ := h
  simp [trimStart, hc]

theorem trimStart_cons_blank {c : Char} (hc : isBlank c = true) (s : Text) :
    trimStart (c :: s) = trimStart s := by
  simp [trimStart, hc]

/-- A text of blanks only. -/
def Blank (s : Text) : Prop :=
  ∀ c ∈ s, isBlank c = true

instance (s : Text) : Decidable (Blank s) :=
  decidable_of_iff (s.all isBlank = true) List.all_eq_true

theorem trimStart_eq_nil_iff {s : Text} : trimStart s = [] ↔ Blank s :=
  List.dropWhile_eq_nil_iff

theorem Blank.trimStart_append {w : Text} (hw : Blank w) (s : Text) :
    trimStart (w ++ s) = trimStart s :=
  List.dropWhile_append_of_pos hw

/-! ## The last place of a character -/

theorem cutLast?_append {d : Char} {v : Text} (hv : d ∉ v) (u : Text) :
    cutLast? d (u ++ d :: v) = some (u, v) := by
  induction u with
  | nil => simp [cutLast?, cutLast?_eq_none_iff.2 hv]
  | cons c u ih => simp [cutLast?, ih]

/-! ## Runs of a class by places -/

/-- What stands at a place of the longest run: all up to that place is of the class. -/
theorem getElem?_takeWhile_eq_some_iff {p : Char → Bool} {s : Text} {n : Nat} {c : Char} :
    (s.takeWhile p)[n]? = some c ↔
      s[n]? = some c ∧ ∀ k, k ≤ n → ∀ d, s[k]? = some d → p d = true := by
  induction s generalizing n with
  | nil => simp
  | cons a s ih =>
    cases ha : p a with
    | false =>
      rw [List.takeWhile_cons_of_neg (by simp [ha])]
      constructor
      · intro h
        cases h
      · rintro ⟨-, hall⟩
        have := hall 0 (Nat.zero_le n) a rfl
        rw [ha] at this
        cases this
    | true =>
      rw [List.takeWhile_cons_of_pos ha]
      cases n with
      | zero => simp [ha]
      | succ n =>
        rw [List.getElem?_cons_succ, List.getElem?_cons_succ, ih]
        refine and_congr_right fun _ => ⟨fun hall k hk d hd => ?_, fun hall k hk d hd => ?_⟩
        · cases k with
          | zero =>
            cases hd
            exact ha
          | succ k => exact hall k (by omega) d hd
        · exact hall (k + 1) (by omega) d hd

/-- Where the longest run ends. -/
theorem length_takeWhile_eq_iff {p : Char → Bool} {s : Text} {n : Nat} :
    (s.takeWhile p).length = n ↔
      (∀ k, k < n → ∃ c, s[k]? = some c ∧ p c = true) ∧ ∀ c, s[n]? = some c → p c = false := by
  induction s generalizing n with
  | nil => 
    constructor
    · rintro rfl
      simp
    · rintro ⟨hall, -⟩
      cases n with
      | zero => rfl
      | succ n => simpa using hall 0 (Nat.succ_pos n)
  | cons a s ih =>
    cases ha : p a with
    | false =>
      rw [List.takeWhile_cons_of_neg (by simp [ha])]
      constructor
      · rintro rfl
        simp [ha]
      · rintro ⟨hall, -⟩
        cases n with
        | zero => rfl
        | succ n => simpa [ha] using hall 0 (Nat.succ_pos n)
    | true =>
      rw [List.takeWhile_cons_of_pos ha]
      cases n with
      | zero => simp [ha]
      | succ n =>
        rw [List.length_cons, Nat.add_right_cancel_iff, ih]
        refine and_congr ⟨fun hall k hk => ?_, fun hall k hk => ?_⟩ Iff.rfl
        · cases k with
          | zero => exact ⟨a, rfl, ha⟩
          | succ k => exact hall k (by omega)
        · exact hall (k + 1) (by omega)

/-! ## The leftmost place -/

/-- What is found first among the rests of a text is found at the leftmost place that has something. -/
theorem findSome?_tails_eq_some_iff {α : Type} {f : Text → Option α} (hnil : f [] = none)
    {s : Text} {a : α} :
    s.tails.findSome? f = some a ↔
      ∃ i, f (s.drop i) = some a ∧ ∀ k, k < i → f (s.drop k) = none := by
  induction s with
  | nil => simp [hnil]
  | cons c s ih =>
    rw [List.tails_cons, List.findSome?_cons]
    cases hhere : f (c :: s) with
    | some b =>
      constructor
      · rintro ⟨⟩
        exact ⟨0, hhere, fun k hk => absurd hk (Nat.not_lt_zero k)⟩
      · rintro ⟨i, hi, hfirst⟩
        cases i with
        | zero => exact hhere.symm.trans hi
        | succ i => exact absurd (hhere.symm.trans (hfirst 0 (Nat.succ_pos i))) (by simp)
    | none =>
      show s.tails.findSome? f = some a ↔ _
      rw [ih]
      constructor
      · rintro ⟨i, hi, hfirst⟩
        refine ⟨i + 1, hi, fun k hk => ?_⟩
        cases k with
        | zero => exact hhere
        | succ k => exact hfirst k (by omega)
      · rintro ⟨i, hi, hfirst⟩
        cases i with
        | zero => exact absurd (hhere.symm.trans hi) (by simp)
        | succ i => exact ⟨i, hi, fun k hk => hfirst (k + 1) (by omega)⟩

/-! ## Lines -/

theorem cutAfter_append {α : Type} [DecidableEq α] {lf : α} {l : List α} (hl : lf ∉ l)
    (s : List α) : cutAfter lf (l ++ lf :: s) = (l ++ [lf]) :: cutAfter lf s := by
  induction l with
  | nil => simp [cutAfter]
  | cons a l ih =>
    have ha : a ≠ lf := fun h => hl (h ▸ List.mem_cons_self)
    have hl' : lf ∉ l := fun h => hl (List.mem_cons_of_mem _ h)
    simp [cutAfter, ha, ih hl']

theorem cutAfter_of_not_mem {α : Type} [DecidableEq α] {lf : α} {l : List α} (hl : lf ∉ l)
    (hne : l ≠ []) : cutAfter lf l = [l] := by
  induction l with
  | nil => exact absurd rfl hne
  | cons a l ih =>
    have ha : a ≠ lf := fun h => hl (h ▸ List.mem_cons_self)
    have hl' : lf ∉ l := fun h => hl (List.mem_cons_of_mem _ h)
    rw [cutAfter, if_neg ha]
    by_cases hnil : l = []
    · rw [hnil]
      rfl
    · rw [ih hl' hnil]

/-- Pieces that hold their feed at the end alone are cut apart again. -/
theorem cutAfter_flatten {α : Type} [DecidableEq α] {lf : α} {pieces : List (List α)}
    (h : ∀ piece ∈ pieces, ∃ l, lf ∉ l ∧ piece = l ++ [lf]) :
    cutAfter lf pieces.flatten = pieces := by
  induction pieces with
  | nil => rfl
  | cons piece pieces ih =>
    obtain ⟨l, hl, rfl⟩ := h piece List.mem_cons_self
    rw [List.flatten_cons, List.append_assoc, List.singleton_append, cutAfter_append hl,
      ih fun p hp => h p (List.mem_cons_of_mem _ hp)]

/-- Such pieces hold as many feeds as they are. -/
theorem count_flatten {α : Type} [DecidableEq α] {lf : α} {pieces : List (List α)}
    (h : ∀ piece ∈ pieces, ∃ l, lf ∉ l ∧ piece = l ++ [lf]) :
    pieces.flatten.count lf = pieces.length := by
  induction pieces with
  | nil => rfl
  | cons piece pieces ih =>
    obtain ⟨l, hl, rfl⟩ := h piece List.mem_cons_self
    rw [List.flatten_cons, List.count_append, List.count_append, List.count_eq_zero.2 hl,
      List.count_singleton_self, ih fun p hp => h p (List.mem_cons_of_mem _ hp), List.length_cons]
    omega

/-- A piece with a feed at its end loses it, and one carriage return before it. -/
theorem chomp_append_feed {α : Type} [DecidableEq α] (lf cr : α) (l : List α) :
    chomp lf cr (l ++ [lf]) = if l.getLast? = some cr then l.dropLast else l := by
  simp [chomp]

theorem chomp_concat {α : Type} [DecidableEq α] {lf cr : α} {l : List α}
    (hl : l.getLast? ≠ some cr) : chomp lf cr (l ++ [lf]) = l := by
  rw [chomp_append_feed, if_neg hl]

theorem lines_append_feed {l : Text} (hlf : '\n' ∉ l) (s : Text) :
    lines (l ++ '\n' :: s) = chomp '\n' '\r' (l ++ ['\n']) :: lines s := by
  unfold lines
  rw [cutAfter_append hlf, List.map_cons]

theorem lines_append {l : Text} (hlf : '\n' ∉ l) (hcr : l.getLast? ≠ some '\r') (s : Text) :
    lines (l ++ '\n' :: s) = l :: lines s := by
  rw [lines_append_feed hlf, chomp_concat hcr]

theorem cutAfter_append_of_ended {α : Type} [DecidableEq α] {lf : α} {a : List α}
    (ha : a = [] ∨ a.getLast? = some lf) (s : List α) :
    cutAfter lf (a ++ s) = cutAfter lf a ++ cutAfter lf s := by
  induction a with
  | nil => rfl
  | cons c a ih =>
    have hlast : (c :: a).getLast? = some lf := ha.resolve_left (List.cons_ne_nil c a)
    have htail : a = [] ∨ a.getLast? = some lf := by
      cases a with
      | nil => exact Or.inl rfl
      | cons d a => exact Or.inr (by simpa [List.getLast?_cons_cons] using hlast)
    rw [List.cons_append, cutAfter, cutAfter, ih htail]
    by_cases hc : c = lf
    · rw [if_pos hc, if_pos hc, List.cons_append]
    · rw [if_neg hc, if_neg hc]
      -- The last character is the feed, so something of `a` is left to be cut.
      cases hcut : cutAfter lf a with
      | nil =>
        have hnil : a = [] := by rw [← flatten_cutAfter lf a, hcut, List.flatten_nil]
        rw [hnil, List.getLast?_singleton, Option.some.injEq] at hlast
        exact absurd hlast hc
      | cons l ls => rfl

/-- After a feed a new line starts, whatever follows. -/
theorem lines_append_of_ended {a : Text} (ha : a = [] ∨ a.getLast? = some '\n') (s : Text) :
    lines (a ++ s) = lines a ++ lines s := by
  unfold lines
  rw [cutAfter_append_of_ended ha, List.map_append]

/-- A piece holds its feed at most at its end. -/
theorem eq_of_mem_cutAfter {α : Type} [DecidableEq α] {lf : α} {s piece : List α}
    (h : piece ∈ cutAfter lf s) : ∃ l, lf ∉ l ∧ (piece = l ∨ piece = l ++ [lf]) := by
  induction s generalizing piece with
  | nil => cases h
  | cons a s ih =>
    rw [cutAfter] at h
    by_cases ha : a = lf
    · rw [if_pos ha, List.mem_cons] at h
      rcases h with rfl | h
      · exact ⟨[], by simp, Or.inr (by simp [ha])⟩
      · exact ih h
    · rw [if_neg ha] at h
      cases hs : cutAfter lf s with
      | nil =>
        rw [hs, List.mem_singleton] at h
        exact ⟨[a], by simpa using Ne.symm ha, Or.inl h⟩
      | cons p ps =>
        rw [hs, List.mem_cons] at h
        rcases h with rfl | h
        · obtain ⟨l, hl, hp⟩ := ih (hs ▸ List.mem_cons_self)
          refine ⟨a :: l, by simp [Ne.symm ha, hl], ?_⟩
          rcases hp with rfl | rfl
          · exact Or.inl rfl
          · exact Or.inr rfl
        · exact ih (hs ▸ List.mem_cons_of_mem p h)

/-- No line holds a feed. -/
theorem not_mem_of_mem_lines {s l : Text} (h : l ∈ lines s) : '\n' ∉ l := by
  obtain ⟨piece, hpiece, rfl⟩ := List.mem_map.1 h
  obtain ⟨l, hl, rfl | rfl⟩ := eq_of_mem_cutAfter hpiece
  · have hend : piece.getLast? ≠ some '\n' := fun hlast => hl (List.mem_of_getLast? hlast)
    rw [chomp, if_neg hend]
    exact hl
  · rw [chomp_append_feed]
    split
    · exact fun hmem => hl (List.dropLast_subset l hmem)
    · exact hl

end Docblocks.Text
