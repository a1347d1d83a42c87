/-
# Docblocks.Proofs.Scan — a scan is the concatenation of what its patterns match.

A scan goes through its patterns in turn, and through the matches of each, with one and the same loop
(`inTurn`).  The loop ends at the first fault (`inTurn_eq_error_iff`), and otherwise it joins what it is given
(`inTurn_ofPaths`).  So a scan is specified by the list of all paths that its patterns match: all of them
count, and those that are regular files themselves are kept (`ofPaths`).  Where nothing stands in the way of
the walks, a scan fails for no other reason than a pattern that cannot be read.
-/
import Docblocks.Scan
import Docblocks.Proofs.Tree.Route

namespace Docblocks

/-! ## What a scan is made of -/

/-- Whether a path names a regular file itself, and not over a link. -/
def Tree.isRegular (t : Tree) (path : Text) : Bool :=
  match t.entryItself? path with
  | some (.file _) => true
  | _ => false

/-- What is a regular file itself can be read. -/
theorem Tree.read_of_isRegular {t : Tree} {path : Text} (h : t.isRegular path = true) :
    ∃ bytes, t.read path = .ok bytes := by
  unfold Tree.isRegular Tree.entryItself? Tree.look at h
  cases hlocate : t.locate .entry path with
  | error cause => simp [hlocate, Except.toOption] at h
  | ok place =>
    cases place with
    | vacant dir name => simp [hlocate, Except.toOption] at h
    | found l =>
      cases hget : t.get? l with
      | none => simp [hlocate, hget, Except.toOption] at h
      | some e =>
        cases e with
        | file content =>
          obtain ⟨hwalk, hroute⟩ := locate_eq_ok_iff.1 hlocate
          have htarget : t.locate .target path = .ok (.found l) := by
            refine locate_eq_ok_iff.2 ⟨hwalk, hroute.to_target (by decide) ?_⟩
            rintro k text hk hlink
            cases hk
            rw [hget] at hlink
            cases hlink
          exact ⟨content, by simp only [Tree.read, Tree.look, htarget, hget]⟩
        | _ => simp [hlocate, hget, Except.toOption] at h

/-- The path of a result. -/
def Glob.Find.path? : Glob.Find → Option Text
  | .path p => some p
  | .unreadable _ => none

namespace Scan

/-- The results of a pattern, in the order of its walk; none if the pattern cannot be read. -/
def results (t : Tree) (pattern : Text) : List Glob.Find :=
  match Glob.Pattern.parse pattern with
  | .error _ => []
  | .ok p => p.expand t

/-- The paths that a pattern matches, in the order of its walk. -/
def found (t : Tree) (pattern : Text) : List Text :=
  (results t pattern).filterMap Glob.Find.path?

/-- A result that is a path at which something is. -/
def Seen (t : Tree) : Glob.Find → Prop
  | .path path => (t.entryItself? path).isSome = true
  | .unreadable _ => False

instance (t : Tree) (find : Glob.Find) : Decidable (Seen t find) :=
  match find with
  | .path path => inferInstanceAs (Decidable ((t.entryItself? path).isSome = true))
  | .unreadable _ => isFalse id

/-- Nothing stands in the way of a pattern: every directory on its way can be read, and every match can be
looked at. -/
def Clear (t : Tree) (pattern : Text) : Prop :=
  ∀ find ∈ results t pattern, Seen t find

/-- The scan that matched the given paths. -/
def ofPaths (t : Tree) (paths : List Text) : Scan :=
  ⟨paths.length, paths.filter t.isRegular⟩

/-- The first pattern that cannot be read has the given fault. -/
def FirstFaulty (patterns : List Text) (fault : Glob.Fault) : Prop :=
  ∃ before pattern after, patterns = before ++ pattern :: after ∧
    (∀ p ∈ before, ∃ parsed, Glob.Pattern.parse p = .ok parsed) ∧
    Glob.Pattern.parse pattern = .error fault

/-! ## One after the other -/

section InTurn

variable {α : Type} {scan : α → Except Fault Scan} {as : List α}

/-- The loop goes through exactly when every single scan does. -/
theorem inTurn_isOk_iff :
    (∃ r, inTurn scan as = .ok r) ↔ ∀ a ∈ as, ∃ r, scan a = .ok r := by
  induction as with
  | nil => simp [inTurn]
  | cons a as ih =>
    rw [List.forall_mem_cons, ← ih, inTurn]
    cases scan a with
    | error fault => simp
    | ok first => cases inTurn scan as <;> simp

/-- The loop fails with the fault of the first scan that fails. -/
theorem inTurn_eq_error_iff {fault : Fault} :
    inTurn scan as = .error fault ↔ ∃ before a after, as = before ++ a :: after ∧
      (∀ b ∈ before, ∃ r, scan b = .ok r) ∧ scan a = .error fault := by
  induction as with
  | nil => simp [inTurn]
  | cons a as ih =>
    rw [inTurn]
    constructor
    · intro h
      cases ha : scan a with
      | error fault' =>
        rw [ha] at h
        exact ⟨[], a, as, rfl, by simp, ha.trans h⟩
      | ok first =>
        have hrest : inTurn scan as = .error fault := by
          cases hrest : inTurn scan as with
          | error fault' => simpa [ha, hrest] using h
          | ok others => simp [ha, hrest] at h
        obtain ⟨before, b, after, rfl, hbefore, hb⟩ := ih.1 hrest
        exact ⟨a :: before, b, after, rfl, List.forall_mem_cons.2 ⟨⟨first, ha⟩, hbefore⟩, hb⟩
    · rintro ⟨before, b, after, hsplit, hbefore, hb⟩
      cases before with
      | nil =>
        obtain ⟨rfl, rfl⟩ := List.cons.inj hsplit
        rw [hb]
      | cons c before =>
        obtain ⟨rfl, rfl⟩ := List.cons.inj hsplit
        obtain ⟨⟨first, ha⟩, hbefore⟩ := List.forall_mem_cons.1 hbefore
        rw [ha, ih.2 ⟨before, b, after, rfl, hbefore, hb⟩]

/-- What holds of the files of every single scan holds of all files. -/
theorem forall_files_inTurn {P : Text → Prop}
    (h : ∀ a ∈ as, ∀ r, scan a = .ok r → ∀ path ∈ r.files, P path) {r : Scan}
    (hr : inTurn scan as = .ok r) : ∀ path ∈ r.files, P path := by
  induction as generalizing r with
  | nil =>
    cases hr
    simp
  | cons a as ih =>
    obtain ⟨hfirst, hothers⟩ := List.forall_mem_cons.1 h
    rw [inTurn] at hr
    cases ha : scan a with
    | error fault => simp [ha] at hr
    | ok first =>
      cases hrest : inTurn scan as with
      | error fault => simp [ha, hrest] at hr
      | ok others =>
        simp only [ha, hrest, Except.ok.injEq] at hr
        subst hr
        intro path hpath
        rcases List.mem_append.1 hpath with hpath | hpath
        · exact hfirst first ha path hpath
        · exact ih hothers hrest path hpath

/-- Scans of lists of paths add up to the scan of all their paths. -/
theorem inTurn_ofPaths {t : Tree} {paths : α → List Text}
    (h : ∀ a ∈ as, scan a = .ok (ofPaths t (paths a))) :
    inTurn scan as = .ok (ofPaths t (as.flatMap paths)) := by
  induction as with
  | nil => rfl
  | cons a as ih =>
    obtain ⟨ha, has⟩ := List.forall_mem_cons.1 h
    rw [inTurn, ha]
    simp only [ih has]
    simp [ofPaths, append, List.flatMap_cons]

end InTurn

/-! ## Patterns -/

variable {t : Tree} {pattern : Text}

theorem ofFind_of_seen {find : Glob.Find} (h : Seen t find) :
    ofFind t find = .ok (ofPaths t find.path?.toList) := by
  cases find with
  | unreadable refusal => exact h.elim
  | path path =>
    obtain ⟨e, he⟩ := Option.isSome_iff_exists.1 h
    have hlook : t.look .entry path = .ok e := by
      unfold Tree.entryItself? at he
      cases hlook : t.look .entry path with
      | error cause =>
        rw [hlook] at he
        cases he
      | ok e' =>
        rw [hlook] at he
        rw [Option.some.inj he]
    simp only [ofFind, hlook]
    cases e <;> simp [ofEntry, ofPaths, Glob.Find.path?, Tree.isRegular, he]

theorem isRegular_of_ofFind {find : Glob.Find} {r : Scan} (h : ofFind t find = .ok r) :
    ∀ path ∈ r.files, t.isRegular path = true := by
  intro path hpath
  cases find with
  | unreadable refusal => cases h
  | path p =>
    cases hlook : t.look .entry p with
    | error cause => simp [ofFind, hlook] at h
    | ok e =>
      simp only [ofFind, hlook, Except.ok.injEq] at h
      subst h
      cases e with
      | file content =>
        obtain rfl := List.mem_singleton.1 hpath
        simp [Tree.isRegular, Tree.entryItself?, hlook, Except.toOption]
      | _ => cases hpath

/-- All files of a scan are regular files themselves, whatever stood in its way. -/
theorem isRegular_of_mem_files {patterns : List Text} {r : Scan} (h : ofTexts t patterns = .ok r) :
    ∀ path ∈ r.files, t.isRegular path = true := by
  refine forall_files_inTurn (P := fun path => t.isRegular path = true) ?_ h
  intro pattern _ r hr
  rw [ofText] at hr
  cases hparse : Glob.Pattern.parse pattern with
  | error fault => simp [hparse] at hr
  | ok p =>
    simp only [hparse] at hr
    exact forall_files_inTurn (fun _ _ _ => isRegular_of_ofFind) hr

/-- A pattern that can be read brings the paths that it matches. -/
theorem ofText_of_clear (hclear : Clear t pattern) {p : Glob.Pattern}
    (hparse : Glob.Pattern.parse pattern = .ok p) :
    ofText t pattern = .ok (ofPaths t (found t pattern)) := by
  have hresults : results t pattern = p.expand t := by
    rw [results, hparse]
  rw [ofText, hparse]
  show inTurn (ofFind t) (p.expand t) = _
  rw [← hresults, found, List.filterMap_eq_flatMap_toList]
  exact inTurn_ofPaths fun find hfind => ofFind_of_seen (hclear find hfind)

theorem ofText_eq_error_iff (hclear : Clear t pattern) {fault : Fault} :
    ofText t pattern = .error fault ↔
      ∃ f, Glob.Pattern.parse pattern = .error f ∧ fault = .pattern f := by
  cases hparse : Glob.Pattern.parse pattern with
  | error f =>
    rw [ofText, hparse]
    simp [eq_comm]
  | ok p =>
    rw [ofText_of_clear hclear hparse]
    simp

theorem ofText_isOk_iff (hclear : Clear t pattern) :
    (∃ r, ofText t pattern = .ok r) ↔ ∃ p, Glob.Pattern.parse pattern = .ok p := by
  cases hparse : Glob.Pattern.parse pattern with
  | error f =>
    rw [ofText, hparse]
    simp
  | ok p =>
    rw [ofText_of_clear hclear hparse]
    simp

variable {patterns : List Text} (hclear : ∀ p ∈ patterns, Clear t p)

include hclear

theorem ofTexts_eq_error_iff {fault : Fault} :
    ofTexts t patterns = .error fault ↔ ∃ f, fault = .pattern f ∧ FirstFaulty patterns f := by
  rw [ofTexts, inTurn_eq_error_iff]
  constructor
  · rintro ⟨before, pattern, after, rfl, hbefore, hpattern⟩
    obtain ⟨f, hparse, hfault⟩ := (ofText_eq_error_iff (hclear pattern (by simp))).1 hpattern
    refine ⟨f, hfault, before, pattern, after, rfl, fun p hp => ?_, hparse⟩
    exact (ofText_isOk_iff (hclear p (by simp [hp]))).1 (hbefore p hp)
  · rintro ⟨f, hfault, before, pattern, after, rfl, hbefore, hparse⟩
    refine ⟨before, pattern, after, rfl, fun p hp => ?_, ?_⟩
    · exact (ofText_isOk_iff (hclear p (by simp [hp]))).2 (hbefore p hp)
    · exact (ofText_eq_error_iff (hclear pattern (by simp))).2 ⟨f, hparse, hfault⟩

theorem ofTexts_of_clear (hparse : ∀ p ∈ patterns, ∃ parsed, Glob.Pattern.parse p = .ok parsed) :
    ofTexts t patterns = .ok (ofPaths t (patterns.flatMap (found t))) := by
  apply inTurn_ofPaths
  intro p hp
  obtain ⟨parsed, hparsed⟩ := hparse p hp
  exact ofText_of_clear (hclear p hp) hparsed

theorem ofTexts_isOk_iff :
    (∃ r, ofTexts t patterns = .ok r) ↔
      ∀ p ∈ patterns, ∃ parsed, Glob.Pattern.parse p = .ok parsed := by
  rw [ofTexts, inTurn_isOk_iff]
  exact forall₂_congr fun p hp => ofText_isOk_iff (hclear p hp)

end Scan

end Docblocks
