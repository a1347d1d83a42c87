/-
# Docblocks.Proofs.Text.Regex — regular expressions by backtracking.

A small language of expressions with the meaning that a backtracking engine gives them.  `ways` lists
all the ways in which an expression matches the start of a text, in the order in which the engine tries
them; a later way is what it falls back to when what follows cannot be matched after the earlier ones.
A repetition is greedy: it gives back one character at a time.  `search?` takes the first way at the
leftmost place that has one.

The lemmas below say what the first way of a sequence is, and that a greedy repetition settles on its
longest run whenever what follows cannot gain from a shorter one.
-/
import Docblocks.Text.Basic
import Mathlib.Data.List.Infix
import Mathlib.Data.List.TakeWhile

namespace Docblocks

/-- An expression. -/
inductive Regex
  /-- A text, character by character. -/
  | text (t : Text)
  /-- One character of a class. -/
  | one (p : Char → Bool)
  /-- Any number of characters of a class, the more the better. -/
  | many (p : Char → Bool)
  /-- One expression and then another. -/
  | seq (a b : Regex)
  /-- An expression whose text is captured. -/
  | group (a : Regex)

namespace Regex

/-- One way to match the start of a text. -/
structure Way where
  /-- The text that is matched. -/
  taken : Text
  /-- What follows it. -/
  rest : Text
  /-- The captured texts, in the order in which their groups open. -/
  groups : List Text := []
  deriving DecidableEq, Repr

/-- A way, and after it another one. -/
def Way.andThen (v w : Way) : Way :=
  ⟨v.taken ++ w.taken, w.rest, v.groups ++ w.groups⟩

/-- The runs of a class at the start of a text, each with what follows it, the longest first. -/
def runs (p : Char → Bool) : Text → List (Text × Text)
  | [] => [([], [])]
  | c :: s => (if p c then (runs p s).map fun r => (c :: r.1, r.2) else []) ++ [([], c :: s)]

/-- All ways to match the start of a text, in the order in which they are tried. -/
def ways : Regex → Text → List Way
  | .text t, s => (Text.after? t s).toList.map fun rest => ⟨t, rest, []⟩
  | .one _, [] => []
  | .one p, c :: s => if p c then [⟨[c], s, []⟩] else []
  | .many p, s => (runs p s).map fun r => ⟨r.1, r.2, []⟩
  | .seq a b, s => (ways a s).flatMap fun v => (ways b v.rest).map v.andThen
  | .group a, s => (ways a s).map fun w => { w with groups := w.taken :: w.groups }

/-- The way that is taken at the start of a text. -/
def first? (r : Regex) (s : Text) : Option Way :=
  (r.ways s).head?

/-- The way that is taken at the leftmost place that has one. -/
def search? (r : Regex) : Text → Option Way
  | [] => r.first? []
  | c :: s =>
    match r.first? (c :: s) with
    | some w => some w
    | none => search? r s

/-- What the groups of the way that is taken at the start of a text capture. -/
def captures? (r : Regex) (s : Text) : Option (List Text) :=
  (r.first? s).map Way.groups

/-- Every place is tried, from the left. -/
theorem search?_eq_findSome? (r : Regex) (s : Text) :
    r.search? s = s.tails.findSome? r.first? := by
  induction s with
  | nil => simp [search?]
  | cons c s ih =>
    rw [search?, ih, List.tails_cons, List.findSome?_cons]
    cases r.first? (c :: s) <;> rfl

/-! ## Sequences -/

/-- What follows is tried after each way of what comes before, until it can be matched. -/
theorem captures?_seq (a b : Regex) (s : Text) :
    (seq a b).captures? s =
      (a.ways s).findSome? fun v => (b.captures? v.rest).map (v.groups ++ ·) := by
  show (((a.ways s).flatMap fun v => (b.ways v.rest).map v.andThen).head?).map Way.groups = _
  rw [List.head?_flatMap, List.map_findSome?]
  congr 1
  funext v
  simp only [Function.comp_apply, List.head?_map, Option.map_map, captures?, first?]
  rfl

theorem captures?_text_seq (t : Text) (b : Regex) (s : Text) :
    (seq (.text t) b).captures? s = (Text.after? t s).bind b.captures? := by
  rw [captures?_seq]
  cases h : Text.after? t s <;> simp [ways, h]

theorem captures?_one_seq_nil (p : Char → Bool) (b : Regex) :
    (seq (.one p) b).captures? [] = none := by
  rw [captures?_seq, ways, List.findSome?_nil]

theorem captures?_one_seq_cons (p : Char → Bool) (b : Regex) (c : Char) (s : Text) :
    (seq (.one p) b).captures? (c :: s) = if p c then b.captures? s else none := by
  rw [captures?_seq]
  cases h : p c <;> simp [ways, h]

theorem captures?_many_seq (p : Char → Bool) (b : Regex) (s : Text) :
    (seq (.many p) b).captures? s = (runs p s).findSome? fun r => b.captures? r.2 := by
  rw [captures?_seq, ways, List.findSome?_map]
  congr 1
  funext r
  simp

theorem captures?_group_many_seq (p : Char → Bool) (b : Regex) (s : Text) :
    (seq (.group (.many p)) b).captures? s =
      (runs p s).findSome? fun r => (b.captures? r.2).map (r.1 :: ·) := by
  rw [captures?_seq, ways, ways, List.map_map, List.findSome?_map]
  rfl

/-! ## Greedy repetitions -/

/-- The longest run is tried first. -/
theorem head?_runs (p : Char → Bool) (s : Text) :
    (runs p s).head? = some (s.takeWhile p, s.dropWhile p) := by
  induction s with
  | nil => rfl
  | cons c s ih =>
    rw [runs]
    cases h : p c with
    | true => simp [h, ih]
    | false => simp [h]

theorem captures?_group_many (p : Char → Bool) (s : Text) :
    (group (.many p)).captures? s = some [s.takeWhile p] := by
  simp [captures?, first?, ways, head?_runs]

/-- A shorter run leaves a part of the class in front of what the longest run leaves. -/
theorem rest_of_mem_runs {p : Char → Bool} {s : Text} {r : Text × Text} (hr : r ∈ runs p s) :
    ∃ u : Text, (∀ c ∈ u, p c = true) ∧ r.2 = u ++ s.dropWhile p := by
  induction s generalizing r with
  | nil =>
    rw [runs, List.mem_singleton] at hr
    exact ⟨[], by simp, by simp [hr]⟩
  | cons c s ih =>
    rw [runs, List.mem_append, List.mem_singleton] at hr
    cases h : p c with
    | true =>
      rcases hr with hr | rfl
      · rw [h, if_pos rfl, List.mem_map] at hr
        obtain ⟨r', hr', rfl⟩ := hr
        obtain ⟨u, hu, hrest⟩ := ih hr'
        exact ⟨u, hu, by simp [h, hrest]⟩
      · refine ⟨c :: s.takeWhile p, ?_, ?_⟩
        · intro d hd
          rcases List.mem_cons.1 hd with rfl | hd
          · exact h
          · exact List.mem_takeWhile_imp hd
        · simp [h, List.takeWhile_append_dropWhile]
    | false =>
      rcases hr with hr | rfl
      · simp [h] at hr
      · exact ⟨[], by simp, by simp [h]⟩

/-- When what follows cannot be matched after a shorter run unless it can be matched after the longest
one, backtracking changes nothing. -/
theorem findSome?_runs {α : Type} {p : Char → Bool} {s : Text} (g : Text → Option α)
    (hg : g (s.dropWhile p) = none →
      ∀ u : Text, (∀ c ∈ u, p c = true) → g (u ++ s.dropWhile p) = none) :
    ((runs p s).findSome? fun r => g r.2) = g (s.dropWhile p) := by
  cases hlong : g (s.dropWhile p) with
  | none =>
    refine List.findSome?_eq_none_iff.2 fun r hr => ?_
    obtain ⟨u, hu, hrest⟩ := rest_of_mem_runs hr
    show g r.2 = none
    rw [hrest]
    exact hg hlong u hu
  | some a =>
    have hhead := head?_runs p s
    cases hruns : runs p s with
    | nil => simp [hruns] at hhead
    | cons r rs =>
      rw [hruns, List.head?_cons, Option.some.injEq] at hhead
      simp [hhead, hlong]

/-- A greedy run before a character of its own class ends before the last such character it could
have taken. -/
theorem findSome?_runs_cutLast {p : Char → Bool} {d : Char} (hd : p d = true) (s : Text) :
    ((runs p s).findSome? fun r => (Text.after? [d] r.2).map fun w => (r.1, w)) =
      (Text.cutLast? d (s.takeWhile p)).map fun r => (r.1, r.2 ++ s.dropWhile p) := by
  induction s with
  | nil => rfl
  | cons c s ih =>
    rw [runs]
    cases h : p c with
    | true =>
      -- Either the rest of the run holds the character, or only its first one can be it.
      have hshift : ((runs p s).map fun r => (c :: r.1, r.2)).findSome?
          (fun r => (Text.after? [d] r.2).map fun w => (r.1, w)) =
          ((runs p s).findSome? fun r => (Text.after? [d] r.2).map fun w => (r.1, w)).map
            fun r => (c :: r.1, r.2) := by
        rw [List.findSome?_map, List.map_findSome?]
        congr 1
        funext r
        simp only [Function.comp_apply, Option.map_map]
        rfl
      rw [if_pos rfl, List.findSome?_append, hshift, ih, List.takeWhile_cons_of_pos h,
        List.dropWhile_cons_of_pos h, Text.cutLast?]
      cases hcut : Text.cutLast? d (s.takeWhile p) with
      | none =>
        by_cases hcd : c = d
        · simp [hcd, Text.after?]
        · simp [Text.after?, hcd, Ne.symm hcd]
      | some uv => simp
    | false =>
      have hcd : d ≠ c := by
        rintro rfl
        rw [hd] at h
        cases h
      simp [h, Text.after?, Text.cutLast?, hcd]

end Regex

end Docblocks
