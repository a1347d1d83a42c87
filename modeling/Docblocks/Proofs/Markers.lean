/-
# Docblocks.Proofs.Markers — what cleaning a captured line removes.

Cleaning takes away one strip text from the start of a line and then, if the marks ask for it, one backslash:
that of the first pair of a backslash and a slash in what is left.  `stripped` and `PairAt` say this by
places, without a search, and `unslashOnce` is shown to stop at the first pair.  Hence cleaning only drops
characters, and it takes back the strip text and the backslash that writing a line puts in.
-/
import Docblocks.Proofs.RoundTrip

namespace Docblocks.Markers

/-! ## The strip text -/

/-- A text without the strip text at its start: as it is, if the strip text is empty or does not stand
there. -/
def stripped (strip s : Text) : Text :=
  if strip ≠ [] ∧ strip <+: s then s.drop strip.length else s

theorem stripOnce_eq_stripped (strip s : Text) : stripOnce strip s = stripped strip s := by
  unfold stripOnce stripped
  cases hafter : Text.after? strip s with
  | some rest =>
    obtain rfl := Text.after?_eq_some_iff.1 hafter
    split
    · exact List.drop_left.symm
    · -- The strip text stands there, so it is empty.
      rename_i hnot
      have hnil : strip = [] := by
        by_contra hne
        exact hnot ⟨hne, List.prefix_append strip rest⟩
      rw [hnil]
      rfl
  | none =>
    rw [if_neg]
    · rfl
    · rintro ⟨-, rest, rfl⟩
      rw [Text.after?_append] at hafter
      cases hafter

theorem stripped_suffix (strip s : Text) : stripped strip s <:+ s := by
  unfold stripped
  split
  · exact List.drop_suffix _ _
  · exact List.suffix_refl s

/-! ## The backslash -/

/-- There is a backslash at a place of a text, and a slash behind it. -/
def PairAt (t : Text) (i : Nat) : Prop :=
  t[i]? = some '\\' ∧ t[i + 1]? = some '/'

instance (t : Text) (i : Nat) : Decidable (PairAt t i) :=
  inferInstanceAs (Decidable (_ ∧ _))

/-- A text with a pair can be cut around its first one. -/
theorem exists_first_pair {t : Text} (h : ∃ i, PairAt t i) :
    ∃ u v, t = u ++ '\\' :: '/' :: v ∧ ∀ i < u.length, ¬ PairAt t i := by
  induction t with
  | nil =>
    obtain ⟨i, hback, -⟩ := h
    simp at hback
  | cons c t ih =>
    by_cases hhere : PairAt (c :: t) 0
    · obtain ⟨hc, ht⟩ := hhere
      cases t with
      | nil => cases ht
      | cons d v =>
        cases hc
        cases ht
        exact ⟨[], v, rfl, fun i hi => absurd hi (Nat.not_lt_zero i)⟩
    · have htail : ∃ i, PairAt t i := by
        obtain ⟨i, hi⟩ := h
        cases i with
        | zero => exact absurd hi hhere
        | succ i => exact ⟨i, hi⟩
      obtain ⟨u, v, rfl, hfirst⟩ := ih htail
      refine ⟨c :: u, v, rfl, fun i hi => ?_⟩
      cases i with
      | zero => exact hhere
      | succ i => exact hfirst i (Nat.lt_of_succ_lt_succ hi)

/-- Without a pair nothing is removed. -/
theorem unslashOnce_of_no_pair {t : Text} (h : ∀ i, ¬ PairAt t i) : unslashOnce t = t := by
  fun_induction unslashOnce t with
  | case1 => rfl
  | case2 c => rfl
  | case3 c d s hpair =>
    obtain ⟨rfl, rfl⟩ := hpair
    exact absurd ⟨rfl, rfl⟩ (h 0)
  | case4 c d s hpair ih =>
    rw [ih fun i => h (i + 1)]

/-- The backslash of the first pair is removed. -/
theorem unslashOnce_append {u v : Text}
    (h : ∀ i < u.length, ¬ PairAt (u ++ '\\' :: '/' :: v) i) :
    unslashOnce (u ++ '\\' :: '/' :: v) = u ++ '/' :: v := by
  induction u with
  | nil => simp [unslashOnce]
  | cons c u ih =>
    have hrest : ∀ i < u.length, ¬ PairAt (u ++ '\\' :: '/' :: v) i := by
      intro i hi
      exact h (i + 1) (Nat.succ_lt_succ hi)
    have hfirst := h 0 (Nat.succ_pos _)
    -- Whatever comes next, it makes no pair with the first character.
    cases htail : u ++ '\\' :: '/' :: v with
    | nil => simp at htail
    | cons d s =>
      have hne : ¬ (c = '\\' ∧ d = '/') := by
        rintro ⟨rfl, rfl⟩
        apply hfirst
        rw [List.cons_append, htail]
        exact ⟨rfl, rfl⟩
      rw [List.cons_append, htail, unslashOnce, if_neg hne, ← htail, ih hrest, List.cons_append]

theorem unslashOnce_sublist (s : Text) : (unslashOnce s).Sublist s := by
  fun_induction unslashOnce s with
  | case1 => exact List.Sublist.refl _
  | case2 c => exact List.Sublist.refl _
  | case3 c d s h =>
    obtain ⟨rfl, rfl⟩ := h
    exact List.sublist_cons_self _ _
  | case4 c d s h ih => exact ih.cons_cons c

/-! ## Cleaning -/

theorem clean_eq (m : Markers) (s : Text) :
    m.clean s = if m.unslash then unslashOnce (stripped m.strip s) else stripped m.strip s := by
  rw [clean, stripOnce_eq_stripped]

/-- Cleaning a line only drops characters. -/
theorem clean_sublist (m : Markers) (s : Text) : (m.clean s).Sublist s := by
  have hstrip := (stripped_suffix m.strip s).sublist
  rw [clean_eq]
  split
  · exact (unslashOnce_sublist _).trans hstrip
  · exact hstrip

/-- **What cleaning a line removes.** The strip text goes from the start, once, and then, if the marks ask for
it and there is a pair of a backslash and a slash, the backslash of the first pair; nothing else changes.  So
a cleaned line is a subsequence of the line, and cleaning undoes the strip text and the escape that a line is
written with. -/
theorem clean_removes (m : Markers) (s : Text) :
    (m.unslash = false ∨ (∀ i, ¬ PairAt (stripped m.strip s) i) → m.clean s = stripped m.strip s) ∧
    (m.unslash = true → (∃ i, PairAt (stripped m.strip s) i) →
      ∃ u v, stripped m.strip s = u ++ '\\' :: '/' :: v ∧
        (∀ i < u.length, ¬ PairAt (stripped m.strip s) i) ∧ m.clean s = u ++ '/' :: v) ∧
    (m.clean s).Sublist s ∧
    (m.unslash = true → ∀ r, m.clean (m.strip ++ Draft.escape r) = r) := by
  refine ⟨?_, ?_, clean_sublist m s, ?_⟩
  · rw [clean_eq]
    rintro (hoff | hnone)
    · rw [hoff]
      rfl
    · rw [unslashOnce_of_no_pair hnone, ite_self]
  · intro hon hpair
    obtain ⟨u, v, hcut, hfirst⟩ := exists_first_pair hpair
    refine ⟨u, v, hcut, hfirst, ?_⟩
    rw [hcut] at hfirst
    rw [clean_eq, if_pos hon, hcut, unslashOnce_append hfirst]
  · intro hon r
    have hwritten := Draft.clean_written m r
    rwa [if_pos hon] at hwritten

/-- Marks that strip a backslash and remove another one. -/
def backslashes : Markers := { strip := ['\\'], unslash := true }

-- The strip text takes the first backslash, so the pair that is left begins with the second one.
theorem clean_removes_backslashes :
    backslashes.clean "\\\\/a\\/".toList = "/a\\/".toList ∧
      PairAt (stripped backslashes.strip "\\\\/a\\/".toList) 0 ∧
      (∃ u v, stripped backslashes.strip "\\\\/a\\/".toList = u ++ '\\' :: '/' :: v ∧
        (∀ i < u.length, ¬ PairAt (stripped backslashes.strip "\\\\/a\\/".toList) i) ∧
        backslashes.clean "\\\\/a\\/".toList = u ++ '/' :: v) ∧
      backslashes.clean (backslashes.strip ++ Draft.escape "a/b/".toList) = "a/b/".toList := by
  have hpair : PairAt (stripped backslashes.strip "\\\\/a\\/".toList) 0 := by decide +kernel
  obtain ⟨-, hremoves, -, hundoes⟩ := clean_removes backslashes "\\\\/a\\/".toList
  exact ⟨by decide +kernel, hpair, hremoves rfl ⟨0, hpair⟩, hundoes rfl _⟩

end Docblocks.Markers
