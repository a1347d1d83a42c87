/-
# Docblocks.Proofs.Tree.Directories — making directories with their parents.

`makeDirs` is bounded by a number that no run uses up.  `Making` is the same recursion without it, as a
relation with one rule for each way a call can go, and the facts about it are inductions over the rules:
directories are all that is added (`Making.adds`), and when a path without two dots is made that was no
directory before, it ends at a new and empty one (`Making.fresh`).
-/
import Docblocks.Proofs.Tree.Path
import Docblocks.Proofs.Tree.Route

namespace Docblocks

namespace Path

/-! ## A parent is shorter -/

theorem glue_pieces (s : Text) : glue (Text.pieces '/' s) = s := by
  induction s with
  | nil => rfl
  | cons c s ih =>
    rw [Text.pieces]
    cases hs : Text.pieces '/' s with
    | nil => exact absurd hs (Text.pieces_ne_nil '/' s)
    | cons p ps =>
      rw [hs] at ih
      by_cases hc : c = '/'
      · rw [if_pos hc, glue_cons_cons, ih, hc]
        rfl
      · rw [if_neg hc]
        cases ps with
        | nil =>
          rw [glue_singleton] at ih ⊢
          rw [ih]
        | cons q ps =>
          rw [glue_cons_cons] at ih ⊢
          rw [List.cons_append, ih]

theorem length_glue_append {ps qs : List Text} (hps : ps ≠ []) (hqs : qs ≠ []) :
    (glue (ps ++ qs)).length = (glue ps).length + 1 + (glue qs).length := by
  induction ps with
  | nil => exact absurd rfl hps
  | cons p ps ih =>
    cases ps with
    | nil =>
      cases qs with
      | nil => exact absurd rfl hqs
      | cons q qs =>
        rw [List.singleton_append, glue_cons_cons, glue_singleton, List.length_append,
          List.length_cons]
        omega
    | cons r ps =>
      rw [List.cons_append, List.cons_append, glue_cons_cons, glue_cons_cons, List.length_append,
        List.length_append, List.length_cons, List.length_cons, ← List.cons_append,
        ih (List.cons_ne_nil r ps)]
      omega

theorem length_parent {path parent : Text} (h : parent? path = some parent) :
    parent.length < path.length := by
  by_cases hne : parent = []
  · cases path with
    | nil => cases h
    | cons c rest => simp [hne]
  · obtain ⟨ps, hdrop, hslash, hcases⟩ := parent?_eq_some h hne
    obtain ⟨p, voids, voids', _, _, _, hps⟩ := eq_dropVoid_dropLast hdrop
    have hrest : voids ++ p :: voids' ≠ [] := by simp
    rcases hcases with ⟨hpieces, _, rfl⟩ | ⟨c, first, _, _, hpieces, _, rfl⟩
    · have hpsne : ps ≠ [] := by
        rintro rfl
        exact hdrop rfl
      have hpath : path.length = 1 + (glue ps).length := by
        rw [← glue_pieces path, hpieces, ← List.singleton_append,
          length_glue_append (by simp) hpsne, glue_singleton]
        simp
      rw [hpath, List.length_cons]
      by_cases hq : dropVoid (dropVoid ps).dropLast = []
      · -- Something is left of the path after its first slash, because a piece of it counts.
        have hglue : glue ps ≠ [] := by
          intro hnil
          have hpieces' := pieces_glue hpsne hslash
          rw [hnil] at hpieces'
          rw [← hpieces'] at hdrop
          exact hdrop rfl
        have hpos := List.length_pos_of_ne_nil hglue
        rw [hq, show glue [] = [] from rfl, List.length_nil]
        omega
      · have hlen := length_glue_append hq hrest
        rw [← hps] at hlen
        omega
    · have hlen := length_glue_append (List.cons_ne_nil (c :: first)
        (dropVoid (dropVoid ps).dropLast)) hrest
      rw [List.cons_append, ← hps, ← hpieces, glue_pieces] at hlen
      omega

end Path

namespace Tree

/-! ## The recursion without its bound -/

theorem makeDir_eq_ok {t u : Tree} {path : Text} (h : t.makeDir path = .ok u) :
    ∃ d n, t.locate .directory path = .ok (.vacant d n) ∧ u = t.insert d n .dir := by
  unfold makeDir at h
  cases hloc : t.locate .directory path with
  | error cause => simp [hloc] at h
  | ok p =>
    cases p with
    | found l => simp [hloc] at h
    | vacant d n =>
      simp only [hloc, Except.ok.injEq] at h
      exact ⟨d, n, rfl, h.symm⟩

/-- The path whose directory is made first; the empty path stands for none. -/
def above (path : Text) : Text :=
  (Path.parent? path).getD []

/-- Making the directory `path` in `t` gives a result and leaves the tree `u`. -/
inductive Making (t : Tree) : Text → Except Cause Unit → Tree → Prop
  | empty : Making t [] (.ok ()) t
  | made {path : Text} {u : Tree} : path ≠ [] → t.makeDir path = .ok u → Making t path (.ok ()) u
  | there {path : Text} {cause : Cause} : path ≠ [] → t.makeDir path = .error cause →
      cause ≠ .noEntry → t.isDir path = true → Making t path (.ok ()) t
  | refused {path : Text} {cause : Cause} : path ≠ [] → t.makeDir path = .error cause →
      cause ≠ .noEntry → t.isDir path = false → Making t path (.error cause) t
  | refusedAbove {path : Text} {cause : Cause} {u : Tree} : path ≠ [] →
      t.makeDir path = .error .noEntry → Making t (above path) (.error cause) u →
      Making t path (.error cause) u
  | madeAfter {path : Text} {u v : Tree} : path ≠ [] → t.makeDir path = .error .noEntry →
      Making t (above path) (.ok ()) u → u.makeDir path = .ok v → Making t path (.ok ()) v
  | thereAfter {path : Text} {cause : Cause} {u : Tree} : path ≠ [] →
      t.makeDir path = .error .noEntry → Making t (above path) (.ok ()) u →
      u.makeDir path = .error cause → u.isDir path = true → Making t path (.ok ()) u
  | refusedAfter {path : Text} {cause : Cause} {u : Tree} : path ≠ [] →
      t.makeDir path = .error .noEntry → Making t (above path) (.ok ()) u →
      u.makeDir path = .error cause → u.isDir path = false → Making t path (.error cause) u

theorem length_above {path : Text} (h : path ≠ []) : (above path).length < path.length := by
  unfold above
  cases hparent : Path.parent? path with
  | none => exact List.length_pos_of_ne_nil h
  | some parent => exact Path.length_parent hparent

theorem parent?_of_above {path : Text} (h : above path ≠ []) :
    Path.parent? path = some (above path) := by
  unfold above at h ⊢
  cases hparent : Path.parent? path with
  | none => simp [hparent] at h
  | some parent => rfl

theorem making_of_makeDirsWithin {t u : Tree} {path : Text} {r : Except Cause Unit} {fuel : Nat}
    (h : makeDirsWithin fuel t path = (r, u)) (hfuel : path.length ≤ fuel) : Making t path r u := by
  induction fuel generalizing path r u with
  | zero =>
    have hnil : path = [] := List.length_eq_zero_iff.1 (Nat.le_zero.1 hfuel)
    rw [makeDirsWithin] at h
    cases h
    rw [hnil]
    exact .empty
  | succ fuel ih =>
    by_cases hpath : path = []
    · rw [makeDirsWithin, if_pos hpath] at h
      cases h
      rw [hpath]
      exact .empty
    -- The bound is never used up: the path above is shorter.
    have hlen := length_above hpath
    rw [makeDirsWithin, if_neg hpath, ← above] at h
    cases hmake : t.makeDir path with
    | ok v =>
      simp only [hmake] at h
      cases h
      exact .made hpath hmake
    | error cause =>
      by_cases hcause : cause = .noEntry
      · subst hcause
        rcases hrec : makeDirsWithin fuel t (above path) with ⟨r', v⟩
        have habove : Making t (above path) r' v := ih hrec (by omega)
        simp only [hmake, hrec] at h
        cases r' with
        | error cause =>
          cases h
          exact .refusedAbove hpath hmake habove
        | ok =>
          cases hagain : v.makeDir path with
          | ok w =>
            simp only [ensureDir, hagain] at h
            cases h
            exact .madeAfter hpath hmake habove hagain
          | error cause =>
            by_cases hdir : v.isDir path = true
            · simp only [ensureDir, hagain, if_pos hdir] at h
              cases h
              exact .thereAfter hpath hmake habove hagain hdir
            · simp only [ensureDir, hagain, if_neg hdir] at h
              cases h
              exact .refusedAfter hpath hmake habove hagain (Bool.eq_false_iff.2 hdir)
      · by_cases hdir : t.isDir path = true
        · simp only [hmake, if_pos hdir] at h
          cases h
          exact .there hpath hmake hcause hdir
        · simp only [hmake, if_neg hdir] at h
          cases h
          exact .refused hpath hmake hcause (Bool.eq_false_iff.2 hdir)

theorem making_of_makeDirs {t u : Tree} {path : Text} {r : Except Cause Unit}
    (h : t.makeDirs path = (r, u)) : Making t path r u :=
  making_of_makeDirsWithin h (Nat.le_refl _)

/-! ## Only directories are added -/

/-- New entries that are directories, at locations of a given kind. -/
def dirs (new : Location → Prop) (l : Location) (e : Entry) : Prop :=
  e = .dir ∧ new l

theorem Adds.makeDir {s t u : Tree} {path : Text} {new : Location → Prop} (h : Adds s t (dirs new))
    (hmake : t.makeDir path = .ok u)
    (hnew : ∀ d n, t.locate .directory path = .ok (.vacant d n) → new (n :: d)) :
    Adds s u (dirs new) := by
  obtain ⟨d, n, hloc, rfl⟩ := makeDir_eq_ok hmake
  refine h.trans ((adds_insert t d n .dir).mono ?_)
  rintro k e ⟨rfl, rfl⟩
  exact ⟨rfl, hnew d n hloc⟩

/-- Whatever comes of it, making a directory adds directories alone: those at the free places that the
path and the paths above it lead to. -/
theorem Making.adds {s t u : Tree} {path : Text} {r : Except Cause Unit}
    {new : Location → Prop} (hmaking : Making t path r u) (paths : Text → Prop)
    (habove : ∀ path, paths path → paths (above path))
    (hnew : ∀ u path d n, Adds s u (dirs new) → paths path →
      u.locate .directory path = .ok (.vacant d n) → new (n :: d))
    (h : Adds s t (dirs new)) (hpath : paths path) : Adds s u (dirs new) := by
  induction hmaking with
  | empty => exact h
  | made _ hmake => exact h.makeDir hmake fun d n => hnew t _ d n h hpath
  | there => exact h
  | refused => exact h
  | refusedAbove _ _ _ ih => exact ih (habove _ hpath)
  | @madeAfter path u v _ _ _ hmake ih =>
    have hu := ih (habove _ hpath)
    exact hu.makeDir hmake fun d n => hnew u _ d n hu hpath
  | thereAfter _ _ _ _ _ ih => exact ih (habove _ hpath)
  | refusedAfter _ _ _ _ _ ih => exact ih (habove _ hpath)

theorem Making.adds_dirs {t u : Tree} {path : Text} {r : Except Cause Unit}
    (h : Making t path r u) : Adds t u (dirs fun _ => True) :=
  h.adds (fun _ => True) (fun _ _ => trivial) (fun _ _ _ _ _ _ _ => trivial) (Adds.refl t _) trivial

/-! ## A new directory is empty -/

/-- A path ends at a directory with nothing in it. -/
def EndsEmpty (t : Tree) (path : Text) : Prop :=
  ∃ d, t.locate .target path = .ok (.found d) ∧ t.get? d = some .dir ∧ ∀ n, t.get? (n :: d) = none

theorem endsEmpty_of_makeDir {t u : Tree} {path : Text} (h : t.makeDir path = .ok u) :
    u.EndsEmpty path := by
  obtain ⟨d, n, hloc, rfl⟩ := makeDir_eq_ok h
  obtain ⟨hwalk, hroute⟩ := locate_eq_ok_iff.1 hloc
  obtain ⟨hd, hn⟩ : t.get? d = some .dir ∧ t.get? (n :: d) = none := sound_of_locate hloc
  have hget : (t.insert d n .dir).get? (n :: d) = some .dir := by
    rw [get?_insert hd hn, if_pos rfl]
  have hroute' : Route (t.insert d n .dir) .target linkLimit (base t.cwd path) (Path.steps path)
      (.found (n :: d)) := by
    refine hroute.fill (adds_insert t d n .dir).grows rfl fun links rest hpass hlast => ?_
    refine .enter ⟨by simp, hpass.2⟩ hget ?_
    simp only [isLast, Bool.or_eq_true, decide_eq_true_eq, Bool.and_eq_true] at hlast
    rcases hlast with rfl | ⟨_, rfl⟩
    · exact .done _ _
    · exact .slash (.done _ _)
  refine ⟨n :: d, locate_eq_ok_iff.2 ⟨hwalk, by rw [cwd_insert]; exact hroute'⟩, hget, fun m => ?_⟩
  -- Whatever stood below the new directory would have needed it before.
  have hne : m :: n :: d ≠ n :: d := by
    intro heq
    have := congrArg List.length heq
    simp at this
  rw [get?_insert hd hn, if_neg hne]
  cases hm : t.get? (m :: n :: d) with
  | none => rfl
  | some e =>
    have := get?_parent hm
    rw [hn] at this
    cases this

theorem makeDir_of_isDir {t : Tree} {path : Text} (h : t.isDir path = true) :
    t.makeDir path = .error .taken := by
  obtain ⟨d, hloc, hd⟩ := isDir_iff.1 h
  obtain ⟨hwalk, hroute⟩ := locate_eq_ok_iff.1 hloc
  obtain ⟨k, hk⟩ := hroute.to_directory rfl hd
  have hloc' : t.locate .directory path = .ok (.found k) := locate_eq_ok_iff.2 ⟨hwalk, hk⟩
  simp only [makeDir, hloc']

/-- Where there is a directory already, nothing changes. -/
theorem Making.eq_of_isDir {t u : Tree} {path : Text} {r : Except Cause Unit}
    (h : Making t path r u) (hdir : t.isDir path = true) : u = t := by
  have htaken := makeDir_of_isDir hdir
  cases h with
  | empty => rfl
  | made _ hmake => rw [htaken] at hmake; cases hmake
  | there => rfl
  | refused => rfl
  | refusedAbove _ hmake => rw [htaken] at hmake; cases hmake
  | madeAfter _ hmake => rw [htaken] at hmake; cases hmake
  | thereAfter _ hmake => rw [htaken] at hmake; cases hmake
  | refusedAfter _ hmake => rw [htaken] at hmake; cases hmake

theorem resolve_replicate_here {t : Tree} {aim : Aim} (links : Nat) (l : Location) (j : Nat)
    (rest : List Path.Step) :
    t.resolve aim links l (List.replicate j .here ++ rest) = t.resolve aim links l rest := by
  induction j with
  | zero => rfl
  | succ j ih => rw [List.replicate_succ, List.cons_append, resolve_here, ih]

/-- Right below an empty directory a path without two dots finds nothing. -/
theorem EndsEmpty.not_found {t : Tree} {aim : Aim} {path parent : Text} {k : Location}
    (h : t.EndsEmpty parent) (hparent : Path.parent? path = some parent) (hne : parent ≠ [])
    (hup : .up ∉ Path.steps path) : t.locate aim path ≠ .ok (.found k) := by
  intro hloc
  obtain ⟨d, hd, hdir, hempty⟩ := h
  obtain ⟨_, hroute⟩ := locate_eq_ok_iff.1 hd
  obtain ⟨habs, j, x, tail, hx, _, hsteps⟩ := Path.steps_of_parent? hparent hne
  obtain ⟨links, happend⟩ := hroute.resolve_append rfl hdir
  obtain ⟨hwalk, hfound⟩ := locate_eq_ok_iff.1 hloc
  have hbase : base t.cwd path = base t.cwd parent := by
    unfold base
    rw [habs]
  have hslash : List.replicate j .here ++ x :: tail ≠ [.slash] := by
    intro heq
    have hmem : x ∈ [Path.Step.slash] := heq ▸ List.mem_append_right _ List.mem_cons_self
    rw [List.mem_singleton] at hmem
    rcases hx with rfl | ⟨n, rfl⟩ <;> cases hmem
  have hresolve := hfound.resolve_eq
  rw [hbase, hsteps, happend aim _ (by simp) hslash, resolve_replicate_here] at hresolve
  -- The walk comes to the empty directory and goes on from there by one name.
  rcases hx with rfl | ⟨n, rfl⟩
  · exact hup (by rw [hsteps]; simp)
  · rw [resolve_name (passable_of_resolve hresolve)] at hresolve
    simp only [hempty n] at hresolve
    obtain ⟨_, hvacant⟩ := of_ite_eq_ok hresolve
    cases hvacant

theorem up_not_mem_parent {path parent : Text} (hparent : Path.parent? path = some parent)
    (hne : parent ≠ []) (hup : .up ∉ Path.steps path) : .up ∉ Path.steps parent := by
  obtain ⟨_, _, _, _, _, _, hsteps⟩ := Path.steps_of_parent? hparent hne
  rw [hsteps] at hup
  exact fun h => hup (List.mem_append_left _ h)

/-- A path without two dots that was no directory and has been made one ends at an empty one. -/
theorem Making.fresh {t u : Tree} {path : Text} {r : Except Cause Unit} (h : Making t path r u)
    (hr : r = .ok ()) (hpath : path ≠ []) (hup : .up ∉ Path.steps path)
    (hdir : t.isDir path = false) : u.EndsEmpty path := by
  induction h with
  | empty => exact absurd rfl hpath
  | made _ hmake => exact endsEmpty_of_makeDir hmake
  | there _ _ _ hthere =>
    rw [hdir] at hthere
    cases hthere
  | refused => cases hr
  | refusedAbove => cases hr
  | madeAfter _ _ _ hmake => exact endsEmpty_of_makeDir hmake
  | @thereAfter path cause u _ _ habove _ hthere ih =>
    -- The path cannot have come to be a directory just because its parent was made: that one would be
    -- as it was before, or new and empty.
    by_cases hne : above path = []
    · rw [hne] at habove
      cases habove with
      | empty =>
        rw [hdir] at hthere
        cases hthere
      | made hnil => exact absurd rfl hnil
      | there hnil => exact absurd rfl hnil
      | madeAfter hnil => exact absurd rfl hnil
      | thereAfter hnil => exact absurd rfl hnil
    · by_cases hparentDir : t.isDir (above path) = true
      · rw [habove.eq_of_isDir hparentDir, hdir] at hthere
        cases hthere
      · have hparent := parent?_of_above hne
        have hempty : u.EndsEmpty (above path) :=
          ih rfl hne (up_not_mem_parent hparent hne hup) (Bool.eq_false_iff.2 hparentDir)
        obtain ⟨k, hk, _⟩ := isDir_iff.1 hthere
        exact absurd hk (hempty.not_found hparent hne hup)
  | refusedAfter => cases hr

end Tree

end Docblocks
