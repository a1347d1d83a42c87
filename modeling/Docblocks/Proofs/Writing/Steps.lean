/-
# Docblocks.Proofs.Writing.Steps — what writing one document can do.

`Placing` lists the ways in which `place` can go, with the tree that each leaves, so that a fact about
writing is a case analysis over six rules and never over the nested matches of the function.
-/
import Docblocks.Proofs.Tree.Directories
import Docblocks.Writing

namespace Docblocks

namespace Tree

/-- Adding bytes makes a file at a free name, makes a file longer, or puts nothing into the device. -/
theorem append_eq_ok {t u : Tree} {path : Text} {bytes : List UInt8}
    (h : t.append path bytes = .ok u) :
    (∃ d n, t.locate .file path = .ok (.vacant d n) ∧ u = t.insert d n (.file bytes)) ∨
      (∃ l content, t.locate .file path = .ok (.found l) ∧ t.get? l = some (.file content) ∧
        u = t.setContent l (content ++ bytes)) ∨
      ∃ l, t.locate .file path = .ok (.found l) ∧ t.get? l = some .device ∧ bytes = [] ∧ u = t := by
  unfold append at h
  cases hloc : t.locate .file path with
  | error cause => simp [hloc] at h
  | ok p =>
    cases p with
    | vacant d n =>
      simp only [hloc, Except.ok.injEq] at h
      exact Or.inl ⟨d, n, rfl, h.symm⟩
    | found l =>
      cases hget : t.get? l with
      | none => simp [hloc, hget] at h
      | some e =>
        cases e with
        | dir => simp [hloc, hget] at h
        | link text => simp [hloc, hget] at h
        | file content =>
          simp only [hloc, hget, Except.ok.injEq] at h
          exact Or.inr (Or.inl ⟨l, content, rfl, hget, h.symm⟩)
        | device =>
          by_cases hbytes : bytes = []
          · simp only [hloc, hget, if_pos hbytes, Except.ok.injEq] at h
            exact Or.inr (Or.inr ⟨l, rfl, hget, hbytes, h.symm⟩)
          · simp [hloc, hget, hbytes] at h

end Tree

namespace Writing

/-- What `shelter` can do: nothing, or make the directory above the target because its path leads
nowhere. -/
theorem shelter_cases (t : Tree) (target : Text) :
    shelter t target = (.ok (), t) ∨
      ∃ parent r u, Path.parent? target = some parent ∧ parent ≠ [] ∧ t.leads parent = false ∧
        Tree.Making t parent r u ∧ shelter t target = (r.mapError (Refusal.mk parent), u) := by
  unfold shelter
  cases hparent : Path.parent? target with
  | none => exact Or.inl rfl
  | some parent =>
    by_cases hskip : parent = [] ∨ t.leads parent
    · exact Or.inl (if_pos hskip)
    · rw [not_or] at hskip
      rcases hmake : t.makeDirs parent with ⟨r, u⟩
      refine Or.inr ⟨parent, r, u, rfl, hskip.1, Bool.eq_false_iff.2 hskip.2,
        Tree.making_of_makeDirs hmake, ?_⟩
      simp only [if_neg (not_or.2 hskip), hmake]
      cases r <;> rfl

/-- Making room above a target adds directories alone. -/
theorem adds_shelter {t u : Tree} {target : Text} {r : Except Refusal Unit}
    (h : shelter t target = (r, u)) : Tree.Adds t u (Tree.dirs fun _ => True) := by
  rcases shelter_cases t target with hsame | ⟨parent, r', u', _, _, _, hmaking, hmade⟩
  · rw [hsame] at h
    cases h
    exact Tree.Adds.refl t _
  · rw [hmade] at h
    cases h
    exact hmaking.adds_dirs

/-- An entry that is no directory was there before the directories above a target were made. -/
theorem get?_of_shelter {t u : Tree} {target : Text} {r : Except Refusal Unit}
    (h : shelter t target = (r, u)) {l : Location} {e : Entry} (hl : u.get? l = some e)
    (he : e ≠ .dir) : t.get? l = some e := by
  rcases (adds_shelter h).only l e hl with ht | hdir
  · exact ht
  · exact absurd hdir.1 he

/-- Writing `bytes` to `target` in `t` gives a result and leaves a tree. -/
inductive Placing (t : Tree) (target : Text) (bytes : List UInt8) :
    Except Refusal Fate → Tree → Prop
  | skipped : t.isFile target = true → Placing t target bytes (.ok .skipped) t
  | unsheltered {refusal : Refusal} {u : Tree} : t.isFile target = false →
      shelter t target = (.error refusal, u) → Placing t target bytes (.error refusal) u
  | refused {cause : Tree.Cause} {u : Tree} : t.isFile target = false →
      shelter t target = (.ok (), u) → u.append target bytes = .error cause →
      Placing t target bytes (.error ⟨target, cause⟩) u
  | made {u : Tree} {d : Location} {n : Text} : t.isFile target = false →
      shelter t target = (.ok (), u) → u.locate .file target = .ok (.vacant d n) →
      Placing t target bytes (.ok .written) (u.insert d n (.file bytes))
  | added {u : Tree} {l : Location} {content : List UInt8} : t.isFile target = false →
      shelter t target = (.ok (), u) → u.locate .file target = .ok (.found l) →
      u.get? l = some (.file content) →
      Placing t target bytes (.ok .written) (u.setContent l (content ++ bytes))
  | swallowed {u : Tree} {l : Location} : t.isFile target = false →
      shelter t target = (.ok (), u) → u.locate .file target = .ok (.found l) →
      u.get? l = some .device → bytes = [] → Placing t target bytes (.ok .written) u

theorem placing_place (t : Tree) (target : Text) (bytes : List UInt8) :
    Placing t target bytes (place t target bytes).1 (place t target bytes).2 := by
  unfold place
  by_cases hfile : t.isFile target = true
  · rw [if_pos hfile]
    exact .skipped hfile
  · have hnot : t.isFile target = false := Bool.eq_false_iff.2 hfile
    rw [if_neg hfile]
    rcases hshelter : shelter t target with ⟨r, u⟩
    cases r with
    | error refusal => exact .unsheltered hnot hshelter
    | ok =>
      cases happend : u.append target bytes with
      | error cause => simpa only [happend] using .refused hnot hshelter happend
      | ok v =>
        simp only [happend]
        rcases Tree.append_eq_ok happend with ⟨d, n, hloc, rfl⟩ | ⟨l, content, hloc, hget, rfl⟩ |
          ⟨l, hloc, hget, hbytes, rfl⟩
        · exact .made hnot hshelter hloc
        · exact .added hnot hshelter hloc hget
        · exact .swallowed hnot hshelter hloc hget hbytes

theorem placing_of_place {t u : Tree} {target : Text} {bytes : List UInt8}
    {r : Except Refusal Fate} (h : place t target bytes = (r, u)) : Placing t target bytes r u := by
  have hplacing := placing_place t target bytes
  rw [h] at hplacing
  exact hplacing

/-- Whether a document is written, skipped or refused, the tree only grows. -/
theorem Placing.grows {t u : Tree} {target : Text} {bytes : List UInt8} {r : Except Refusal Fate}
    (h : Placing t target bytes r u) : Tree.Grows t u := by
  cases h with
  | skipped => exact Tree.Grows.refl t
  | unsheltered _ hshelter => exact (adds_shelter hshelter).grows
  | refused _ hshelter => exact (adds_shelter hshelter).grows
  | made _ hshelter => exact (adds_shelter hshelter).grows.trans (Tree.adds_insert _ _ _ _).grows
  | added _ hshelter _ hget =>
    exact (adds_shelter hshelter).grows.trans (Tree.grows_setContent hget bytes)
  | swallowed _ hshelter => exact (adds_shelter hshelter).grows

/-! ## Document after document -/

/-- The tree that is left: the documents behind one that is refused are not written. -/
theorem snd_placeAll_cons (t : Tree) (target : Text) (bytes : List UInt8)
    (docs : List (Text × List UInt8)) :
    (placeAll t ((target, bytes) :: docs)).2 =
      match place t target bytes with
      | (.error _, u) => u
      | (.ok _, u) => (placeAll u docs).2 := by
  rw [placeAll]
  rcases place t target bytes with ⟨r, u⟩
  cases r with
  | error refusal => rfl
  | ok fate =>
    rcases hrest : placeAll u docs with ⟨r', v⟩
    cases r' <;> simp only [hrest]

theorem placeAll_cons_eq_ok {t v : Tree} {target : Text} {bytes : List UInt8}
    {docs : List (Text × List UInt8)} {report : Report}
    (h : placeAll t ((target, bytes) :: docs) = (.ok report, v)) :
    ∃ fate u report', place t target bytes = (.ok fate, u) ∧
      placeAll u docs = (.ok report', v) ∧ report = report'.cons fate target := by
  rw [placeAll] at h
  rcases hplace : place t target bytes with ⟨r, u⟩
  rw [hplace] at h
  cases r with
  | error refusal => cases h
  | ok fate =>
    rcases hrest : placeAll u docs with ⟨r', w⟩
    simp only [hrest] at h
    cases r' with
    | error refusal => cases h
    | ok report' =>
      cases h
      exact ⟨fate, u, report', rfl, hrest, rfl⟩

end Writing

end Docblocks
