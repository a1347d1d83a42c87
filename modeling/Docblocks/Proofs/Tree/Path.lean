/-
# Docblocks.Proofs.Tree.Path — the steps of a path and of its parent.

`Path.parent?` works on the text of a path and `Path.steps` is how the tree reads it.  The main fact,
`steps_of_parent?`, ties the two: a path walks like its parent, then over dots, then one step further by
a name or to the directory above, and after that only over dots and a slash.
-/
import Docblocks.Tree.Path
import Mathlib.Data.List.DropRight

namespace Docblocks

namespace Text

/-! ## Pieces -/

theorem pieces_ne_nil (d : Char) (s : Text) : pieces d s ≠ [] := by
  cases s with
  | nil => simp [pieces]
  | cons c s =>
    unfold pieces
    split
    · simp
    · split <;> simp

theorem not_mem_of_mem_pieces {d : Char} {s p : Text} (h : p ∈ pieces d s) : d ∉ p := by
  induction s generalizing p with
  | nil =>
    rw [pieces, List.mem_singleton] at h
    simp [h]
  | cons c s ih =>
    rw [pieces] at h
    by_cases hc : c = d
    · rw [if_pos hc] at h
      rcases List.mem_cons.1 h with rfl | h
      · simp
      · exact ih h
    · rw [if_neg hc] at h
      cases hs : pieces d s with
      | nil => exact absurd hs (pieces_ne_nil d s)
      | cons q qs =>
        rw [hs] at h ih
        rcases List.mem_cons.1 h with rfl | h
        · have hq : d ∉ q := ih List.mem_cons_self
          simp [hq, Ne.symm hc]
        · exact ih (List.mem_cons_of_mem _ h)

theorem pieces_of_not_mem {d : Char} {p : Text} (h : d ∉ p) : pieces d p = [p] := by
  induction p with
  | nil => rfl
  | cons c p ih =>
    have hc : c ≠ d := fun hc => h (hc ▸ List.mem_cons_self)
    rw [pieces, if_neg hc, ih fun hp => h (List.mem_cons_of_mem _ hp)]

/-- A text with a `d` in it has the pieces before that `d` and those behind it. -/
theorem pieces_append_cons (d : Char) (a b : Text) :
    pieces d (a ++ d :: b) = pieces d a ++ pieces d b := by
  induction a with
  | nil => simp [pieces]
  | cons c a ih =>
    rw [List.cons_append, pieces, pieces, ih]
    by_cases hc : c = d
    · rw [if_pos hc, if_pos hc, List.cons_append]
    · rw [if_neg hc, if_neg hc]
      cases ha : pieces d a with
      | nil => exact absurd ha (pieces_ne_nil d a)
      | cons p ps => rfl

theorem pieces_append {d : Char} {p : Text} (h : d ∉ p) (s : Text) :
    pieces d (p ++ d :: s) = p :: pieces d s := by
  rw [pieces_append_cons, pieces_of_not_mem h, List.singleton_append]

/-- Every character but `d` stands in a piece. -/
theorem exists_mem_pieces {c d : Char} {s : Text} (hc : c ∈ s) (hcd : c ≠ d) :
    ∃ p ∈ pieces d s, c ∈ p := by
  induction s with
  | nil => cases hc
  | cons x s ih =>
    rw [pieces]
    by_cases hx : x = d
    · rw [if_pos hx]
      rcases List.mem_cons.1 hc with rfl | hc
      · exact absurd hx hcd
      · obtain ⟨p, hp, hcp⟩ := ih hc
        exact ⟨p, List.mem_cons_of_mem _ hp, hcp⟩
    · rw [if_neg hx]
      cases hs : pieces d s with
      | nil => exact absurd hs (pieces_ne_nil d s)
      | cons q qs =>
        rcases List.mem_cons.1 hc with rfl | hc
        · exact ⟨c :: q, List.mem_cons_self, List.mem_cons_self⟩
        · obtain ⟨p, hp, hcp⟩ := ih hc
          rw [hs] at hp
          rcases List.mem_cons.1 hp with rfl | hp
          · exact ⟨x :: p, List.mem_cons_self, List.mem_cons_of_mem _ hcp⟩
          · exact ⟨p, List.mem_cons_of_mem _ hp, hcp⟩

end Text

namespace Path

/-! ## Pieces put together -/

theorem glue_cons_cons (p q : Text) (ps : List Text) :
    glue (p :: q :: ps) = p ++ '/' :: glue (q :: ps) := by
  simp [glue, List.intercalate]

theorem glue_singleton (p : Text) : glue [p] = p := by
  simp [glue, List.intercalate]

theorem pieces_glue {ps : List Text} (hne : ps ≠ []) (hps : ∀ p ∈ ps, '/' ∉ p) :
    Text.pieces '/' (glue ps) = ps := by
  induction ps with
  | nil => exact absurd rfl hne
  | cons p ps ih =>
    have hp : '/' ∉ p := hps p List.mem_cons_self
    cases ps with
    | nil => rw [glue_singleton, Text.pieces_of_not_mem hp]
    | cons q ps =>
      rw [glue_cons_cons, Text.pieces_append hp,
        ih (by simp) fun r hr => hps r (List.mem_cons_of_mem _ hr)]

/-- Pieces of which the last is not empty end like that piece. -/
theorem getLast?_glue {ps : List Text} {p : Text} (hlast : ps.getLast? = some p) (hp : p ≠ []) :
    (glue ps).getLast? = p.getLast? := by
  induction ps with
  | nil => cases hlast
  | cons q ps ih =>
    cases ps with
    | nil =>
      have hqp : q = p := by simpa using hlast
      rw [glue_singleton, hqp]
    | cons r ps =>
      rw [List.getLast?_cons_cons] at hlast
      have hrest : (glue (r :: ps)).getLast? = p.getLast? := ih hlast
      have hsome : p.getLast? ≠ none := fun h => hp (List.getLast?_eq_none_iff.1 h)
      rw [glue_cons_cons, List.getLast?_append, List.getLast?_cons, hrest]
      cases hpl : p.getLast? with
      | none => exact absurd hpl hsome
      | some c => rfl

/-! ## Steps of pieces -/

theorem filterMap_step?_void {ps : List Text} (h : ∀ p ∈ ps, isVoid p = true) :
    ∃ j, ps.filterMap step? = List.replicate j .here := by
  induction ps with
  | nil => exact ⟨0, rfl⟩
  | cons p ps ih =>
    obtain ⟨j, hj⟩ := ih fun q hq => h q (List.mem_cons_of_mem _ hq)
    have hp : isVoid p = true := h p List.mem_cons_self
    simp only [isVoid, Bool.or_eq_true, decide_eq_true_eq] at hp
    rcases hp with rfl | rfl
    · exact ⟨j, by simpa [step?] using hj⟩
    · exact ⟨j + 1, by simp [step?, hj, List.replicate_succ]⟩

theorem step?_of_not_void {p : Text} (h : isVoid p = false) :
    ∃ x, step? p = some x ∧ (x = .up ∨ ∃ n, x = .name n) := by
  simp only [isVoid, Bool.or_eq_false_iff, decide_eq_false_iff_not] at h
  unfold step?
  rw [if_neg h.1, if_neg h.2]
  by_cases hup : p = ['.', '.']
  · exact ⟨.up, if_pos hup, Or.inl rfl⟩
  · exact ⟨.name p, if_neg hup, Or.inr ⟨p, rfl⟩⟩

theorem ne_nil_of_not_void {p : Text} (h : isVoid p = false) : p ≠ [] := by
  rintro rfl
  cases h

/-- Pieces with void ones at the end dropped end in one that is not void. -/
theorem getLast?_dropVoid {ps : List Text} (h : dropVoid ps ≠ []) :
    ∃ p, (dropVoid ps).getLast? = some p ∧ isVoid p = false := by
  refine ⟨(dropVoid ps).getLast h, List.getLast?_eq_some_getLast h, ?_⟩
  have hnot := List.rdropWhile_last_not isVoid ps h
  exact Bool.eq_false_iff.2 hnot

/-- The last piece that counts, with the void ones around it. -/
theorem eq_dropVoid_dropLast {ps : List Text} (h : dropVoid ps ≠ []) :
    ∃ p voids voids', isVoid p = false ∧ (∀ q ∈ voids, isVoid q = true) ∧
      (∀ q ∈ voids', isVoid q = true) ∧
      ps = dropVoid (dropVoid ps).dropLast ++ (voids ++ p :: voids') := by
  obtain ⟨p, hlast, hp⟩ := getLast?_dropVoid h
  have hsplit : ∀ qs : List Text, dropVoid qs ++ qs.rtakeWhile isVoid = qs :=
    fun _ => List.rdropWhile_append_rtakeWhile
  refine ⟨p, (dropVoid ps).dropLast.rtakeWhile isVoid, ps.rtakeWhile isVoid, hp,
    fun q hq => List.mem_rtakeWhile_imp hq, fun q hq => List.mem_rtakeWhile_imp hq, ?_⟩
  rw [← List.append_assoc, hsplit, ← List.singleton_append, ← List.append_assoc,
    List.dropLast_append_getLast? p hlast, hsplit]

/-- The steps of pieces are those of what remains when the last one that counts is dropped, then dots,
then that one, then dots. -/
theorem filterMap_step?_dropLast {ps : List Text} (h : dropVoid ps ≠ []) :
    ∃ j x k, (x = Step.up ∨ ∃ n, x = Step.name n) ∧
      ps.filterMap step? = (dropVoid (dropVoid ps).dropLast).filterMap step? ++
        (List.replicate j .here ++ x :: List.replicate k .here) := by
  obtain ⟨p, voids, voids', hp, hvoids, hvoids', hps⟩ := eq_dropVoid_dropLast h
  obtain ⟨x, hx, hxkind⟩ := step?_of_not_void hp
  obtain ⟨j, hj⟩ := filterMap_step?_void hvoids
  obtain ⟨k, hk⟩ := filterMap_step?_void hvoids'
  refine ⟨j, x, k, hxkind, ?_⟩
  conv_lhs => rw [hps]
  rw [List.filterMap_append, List.filterMap_append, List.filterMap_cons_some hx, hj, hk]

theorem steps_of_getLast?_ne {path : Text} (h : path.getLast? ≠ some '/') :
    steps path = (Text.pieces '/' path).filterMap step? := by
  simp [steps, h]

/-- The steps of a path are those of its pieces, with at most a slash behind them. -/
theorem steps_eq (path : Text) :
    ∃ tail, (tail = [] ∨ tail = [.slash]) ∧
      steps path = (Text.pieces '/' path).filterMap step? ++ tail := by
  by_cases h : path.getLast? = some '/' ∧ (Text.pieces '/' path).filterMap step? ≠ []
  · exact ⟨[.slash], Or.inr rfl, if_pos h⟩
  · exact ⟨[], Or.inl rfl, by rw [List.append_nil]; exact if_neg h⟩

/-! ## The parent -/

/-- Pieces without slashes of which the last is not empty have the steps of their text. -/
theorem steps_glue {ps : List Text} (hps : ∀ p ∈ ps, '/' ∉ p) {p : Text}
    (hlast : ps.getLast? = some p) (hp : p ≠ []) : steps (glue ps) = ps.filterMap step? := by
  have hne : ps ≠ [] := by
    rintro rfl
    cases hlast
  have hslash : '/' ∉ p := hps p (List.mem_of_getLast? hlast)
  have hend : (glue ps).getLast? ≠ some '/' := by
    rw [getLast?_glue hlast hp]
    exact fun h => hslash (List.mem_of_getLast? h)
  rw [steps_of_getLast?_ne hend, pieces_glue hne hps]

theorem steps_slash_glue {ps : List Text} (hps : ∀ p ∈ ps, '/' ∉ p)
    (hlast : ∀ p, ps.getLast? = some p → p ≠ []) :
    steps ('/' :: glue ps) = ps.filterMap step? := by
  cases hl : ps.getLast? with
  | none =>
    rw [List.getLast?_eq_none_iff.1 hl]
    rfl
  | some p =>
    have hne : ps ≠ [] := by
      rintro rfl
      cases hl
    have hp : p ≠ [] := hlast p hl
    have hslash : '/' ∉ p := hps p (List.mem_of_getLast? hl)
    have hend : ('/' :: glue ps).getLast? ≠ some '/' := by
      rw [List.getLast?_cons, getLast?_glue hl hp]
      cases hpl : p.getLast? with
      | none => exact absurd (List.getLast?_eq_none_iff.1 hpl) hp
      | some c =>
        intro h
        cases h
        exact hslash (List.mem_of_getLast? hpl)
    rw [steps_of_getLast?_ne hend, Text.pieces, if_pos rfl, pieces_glue hne hps]
    rfl

theorem mem_of_mem_dropVoid {ps : List Text} {p : Text} (h : p ∈ dropVoid ps) : p ∈ ps :=
  (List.rdropWhile_prefix isVoid ps).subset h

/-- What `parent?` does: it drops the last piece that counts, with the void ones around it, and leaves
something unless that piece is the first of a path that does not start with a slash. -/
theorem parent?_eq_some {path parent : Text} (h : parent? path = some parent) (hne : parent ≠ []) :
    ∃ ps, dropVoid ps ≠ [] ∧ (∀ p ∈ ps, '/' ∉ p) ∧
      ((Text.pieces '/' path = [] :: ps ∧ isAbsolute path = true ∧
          parent = '/' :: glue (dropVoid (dropVoid ps).dropLast)) ∨
        ∃ c first, c ≠ '/' ∧ '/' ∉ first ∧ Text.pieces '/' path = (c :: first) :: ps ∧
          isAbsolute path = false ∧
          parent = glue ((c :: first) :: dropVoid (dropVoid ps).dropLast)) := by
  cases path with
  | nil => cases h
  | cons c rest =>
    rw [parent?] at h
    by_cases hc : c = '/'
    · rw [if_pos hc] at h
      cases hps : dropVoid (Text.pieces '/' rest) with
      | nil => simp [hps] at h
      | cons q qs =>
        refine ⟨Text.pieces '/' rest, by simp [hps], fun p hp => Text.not_mem_of_mem_pieces hp,
          Or.inl ⟨?_, ?_, ?_⟩⟩
        · rw [Text.pieces, if_pos hc]
        · simp [isAbsolute, hc]
        · rw [hps]
          simpa [hps] using h.symm
    · rw [if_neg hc] at h
      have hpieces : ∃ first ps, Text.pieces '/' (c :: rest) = (c :: first) :: ps := by
        rw [Text.pieces, if_neg hc]
        cases hrest : Text.pieces '/' rest with
        | nil => exact ⟨[], [], rfl⟩
        | cons p ps => exact ⟨p, ps, rfl⟩
      obtain ⟨first, ps, hpieces⟩ := hpieces
      have hslash : ∀ p ∈ (c :: first) :: ps, '/' ∉ p := by
        intro p hp
        rw [← hpieces] at hp
        exact Text.not_mem_of_mem_pieces hp
      rw [hpieces] at h
      cases hps : dropVoid ps with
      | nil =>
        simp only [hps, Option.some.injEq] at h
        exact absurd h.symm hne
      | cons q qs =>
        refine ⟨ps, by simp [hps], fun p hp => hslash p (List.mem_cons_of_mem _ hp),
          Or.inr ⟨c, first, hc, ?_, hpieces, ?_, ?_⟩⟩
        · exact fun hf => hslash _ List.mem_cons_self (List.mem_cons_of_mem _ hf)
        · simp [isAbsolute, hc]
        · rw [hps]
          simpa [hps] using h.symm

/-- The steps of what `parent?` leaves are those of its pieces: it ends in a piece that counts. -/
theorem steps_parent {path parent : Text} (h : parent? path = some parent) (hne : parent ≠ []) :
    ∃ before ps, dropVoid ps ≠ [] ∧ Text.pieces '/' path = before ++ ps ∧
      isAbsolute parent = isAbsolute path ∧
      steps parent =
        before.filterMap step? ++ (dropVoid (dropVoid ps).dropLast).filterMap step? := by
  obtain ⟨ps, hdrop, hslash, hcases⟩ := parent?_eq_some h hne
  have hslash' : ∀ p ∈ dropVoid (dropVoid ps).dropLast, '/' ∉ p := fun p hp =>
    hslash p (mem_of_mem_dropVoid ((List.dropLast_subset _) (mem_of_mem_dropVoid hp)))
  -- What is left ends in a piece that counts, so its text ends in no slash.
  have hlast : ∀ p, (dropVoid (dropVoid ps).dropLast).getLast? = some p → p ≠ [] := by
    intro p hp
    have hrest : dropVoid (dropVoid ps).dropLast ≠ [] := by
      intro hnil
      rw [hnil] at hp
      cases hp
    obtain ⟨q, hq, hqv⟩ := getLast?_dropVoid hrest
    rw [hp] at hq
    cases hq
    exact ne_nil_of_not_void hqv
  rcases hcases with ⟨hpieces, habs, rfl⟩ | ⟨c, first, hc, hfirst, hpieces, habs, rfl⟩
  · refine ⟨[[]], ps, hdrop, hpieces, ?_, ?_⟩
    · rw [habs]
      rfl
    · rw [steps_slash_glue hslash' hlast]
      rfl
  · refine ⟨[c :: first], ps, hdrop, hpieces, ?_, ?_⟩
    · rw [habs]
      cases dropVoid (dropVoid ps).dropLast with
      | nil => simp [glue_singleton, isAbsolute, hc]
      | cons q qs => simp [glue_cons_cons, isAbsolute, hc]
    · rw [← List.filterMap_append, List.singleton_append]
      have hall : ∀ p ∈ (c :: first) :: dropVoid (dropVoid ps).dropLast, '/' ∉ p := by
        intro p hp
        rcases List.mem_cons.1 hp with rfl | hp
        · simp [hfirst, Ne.symm hc]
        · exact hslash' p hp
      cases hl : (dropVoid (dropVoid ps).dropLast).getLast? with
      | none =>
        rw [List.getLast?_eq_none_iff.1 hl] at hall ⊢
        exact steps_glue hall rfl (by simp)
      | some p =>
        refine steps_glue hall (p := p) ?_ (hlast p hl)
        rw [List.getLast?_cons, hl]
        rfl

/-- A path walks like its parent, then over dots, then one step further, and then at most over dots and
a slash. -/
theorem steps_of_parent? {path parent : Text} (h : parent? path = some parent) (hne : parent ≠ []) :
    isAbsolute parent = isAbsolute path ∧
      ∃ j x tail, (x = Step.up ∨ ∃ n, x = Step.name n) ∧
        (∀ s ∈ tail, s = Step.here ∨ s = Step.slash) ∧
        steps path = steps parent ++ (List.replicate j .here ++ x :: tail) := by
  obtain ⟨before, ps, hdrop, hpieces, habs, hsteps⟩ := steps_parent h hne
  obtain ⟨j, x, k, hx, hps⟩ := filterMap_step?_dropLast hdrop
  obtain ⟨tail, htail, hpath⟩ := steps_eq path
  refine ⟨habs, j, x, List.replicate k .here ++ tail, hx, ?_, ?_⟩
  · intro s hs
    rcases List.mem_append.1 hs with hs | hs
    · exact Or.inl (List.eq_of_mem_replicate hs)
    · rcases htail with rfl | rfl
      · cases hs
      · exact Or.inr (List.mem_singleton.1 hs)
  · rw [hpath, hpieces, hsteps, List.filterMap_append, hps]
    simp

/-- Steps to the directory above are exactly the pieces of two dots. -/
theorem up_mem_steps {path : Text} :
    Step.up ∈ steps path ↔ ['.', '.'] ∈ Text.pieces '/' path := by
  obtain ⟨tail, htail, hpath⟩ := steps_eq path
  have hnot : Step.up ∉ tail := by
    rcases htail with rfl | rfl <;> simp
  rw [hpath, List.mem_append, or_iff_left hnot, List.mem_filterMap]
  constructor
  · rintro ⟨p, hp, hstep⟩
    unfold step? at hstep
    by_cases hup : p = ['.', '.']
    · exact hup ▸ hp
    · by_cases hnil : p = []
      · simp [hnil] at hstep
      · by_cases hdot : p = ['.'] <;> simp [hnil, hdot, hup] at hstep
  · intro hp
    exact ⟨_, hp, rfl⟩

end Path

end Docblocks
