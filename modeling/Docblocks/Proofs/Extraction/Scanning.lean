/-
# Docblocks.Proofs.Extraction.Scanning — what a run goes through before it writes.

A run checks its settings, scans its patterns, reads its sources, and only then writes.  The first two stages
can refuse, and leave the tree as it is: the settings for the first thing they lack, the scan for the first
pattern that cannot be read.  Once the scan is through, all its files can be read, and each of them comes
into the store as often as it was scanned (`count_under_appendAll`); what is then written is that store.
-/
import Docblocks.Proofs.Extraction
import Docblocks.Proofs.Scan
import Mathlib.Algebra.BigOperators.Group.Finset.Basic

namespace Docblocks

/-! ## Settings -/

namespace Settings

/-- Whether settings lack something. -/
def Lack.isOf (s : Settings) : Lack → Bool
  | .pattern => s.patterns.isEmpty
  | .output => s.output.isEmpty
  | .opening => s.markers.opening.isEmpty
  | .closing => s.markers.closing.isEmpty
  | .line => s.markers.line.isEmpty

/-- What settings can lack, in the order in which it is looked for. -/
def Lack.all : List Lack :=
  [.pattern, .output, .opening, .closing, .line]

theorem lack?_eq_find? (s : Settings) : s.lack? = Lack.all.find? fun lack => lack.isOf s := by
  unfold lack?
  simp only [Lack.all, List.find?, Lack.isOf]
  cases s.patterns.isEmpty <;> cases s.output.isEmpty <;> cases s.markers.opening.isEmpty <;>
    cases s.markers.closing.isEmpty <;> cases s.markers.line.isEmpty <;> rfl

theorem lack?_eq_none_iff {s : Settings} : s.lack? = none ↔ ∀ lack, Lack.isOf s lack = false := by
  rw [lack?_eq_find?, List.find?_eq_none]
  constructor
  · intro h lack
    cases lack <;> simpa using h _ (by decide)
  · intro h lack _
    simp [h lack]

end Settings

/-! ## Patterns -/

/-- Scanning two lists of patterns, one behind the other, is scanning the one and then the other. -/
structure Scan.Joins (t : Tree) (ps qs : List Text) : Prop where
  /-- The scan fails exactly when one of the patterns cannot be read, -/
  fails : (∃ fault, ofTexts t (ps ++ qs) = .error fault) ↔
    ∃ p ∈ ps ++ qs, ∃ f, Glob.Pattern.parse p = .error f
  /-- and then with the fault of the first of them. -/
  first : ∀ fault, ofTexts t (ps ++ qs) = .error fault ↔
    ∃ f, fault = .pattern f ∧ FirstFaulty (ps ++ qs) f
  /-- Otherwise both counts add up, and the files of the one stand before those of the other. -/
  joined : (∀ p ∈ ps ++ qs, ∃ parsed, Glob.Pattern.parse p = .ok parsed) → ∃ a b,
    ofTexts t ps = .ok a ∧ ofTexts t qs = .ok b ∧
      ofTexts t (ps ++ qs) = .ok ⟨a.matched + b.matched, a.files ++ b.files⟩
  /-- Every pattern brings its matches in the order of its walk, whether they were matched before or not.  All
  of them count, and those are kept that are regular files themselves. -/
  brought : (∀ p ∈ ps ++ qs, ∃ parsed, Glob.Pattern.parse p = .ok parsed) →
    ofTexts t (ps ++ qs) = .ok ⟨((ps ++ qs).flatMap (found t)).length,
      ((ps ++ qs).flatMap (found t)).filter t.isRegular⟩

theorem Scan.joins_of_clear {t : Tree} {ps qs : List Text} (hclear : ∀ p ∈ ps ++ qs, Clear t p) :
    Joins t ps qs where
  fails := by
    have hok := ofTexts_isOk_iff hclear
    constructor
    · rintro ⟨fault, hfault⟩
      obtain ⟨f, -, before, pattern, after, hsplit, -, hparse⟩ := (ofTexts_eq_error_iff hclear).1 hfault
      exact ⟨pattern, by rw [hsplit]; simp, f, hparse⟩
    · rintro ⟨p, hp, f, hparse⟩
      cases hscan : ofTexts t (ps ++ qs) with
      | error fault => exact ⟨fault, rfl⟩
      | ok r =>
        obtain ⟨parsed, hparsed⟩ := hok.1 ⟨r, hscan⟩ p hp
        rw [hparse] at hparsed
        cases hparsed
  first := fun fault => ofTexts_eq_error_iff hclear
  joined := by
    intro hparse
    have hps := ofTexts_of_clear (fun p hp => hclear p (List.mem_append_left qs hp))
      (fun p hp => hparse p (List.mem_append_left qs hp))
    have hqs := ofTexts_of_clear (fun p hp => hclear p (List.mem_append_right ps hp))
      (fun p hp => hparse p (List.mem_append_right ps hp))
    refine ⟨_, _, hps, hqs, ?_⟩
    rw [ofTexts_of_clear hclear hparse, ofPaths, List.flatMap_append, List.length_append,
      List.filter_append]
    rfl
  brought := fun hparse => ofTexts_of_clear hclear hparse

/-! ## Sources -/

/-- A fragment stands in a store as often as it was added. -/
theorem Store.count_under_appendAll (fs : List Fragment) (f : Fragment) :
    ((appendAll {} fs).under f.path f.order).count f.chunk = fs.count f := by
  have hunder : (appendAll {} fs).under f.path f.order =
      (fs.filter fun g => g.path = f.path ∧ g.order = f.order).map Fragment.chunk :=
    under_appendAll ordered_empty fs f.path f.order
  rw [hunder, List.count, List.countP_map, List.countP_filter, List.count]
  apply List.countP_congr
  intro g _
  obtain ⟨path, order, chunk⟩ := f
  obtain ⟨path', order', chunk'⟩ := g
  simp only [Function.comp_apply, Bool.and_eq_true, beq_iff_eq, decide_eq_true_eq, Fragment.mk.injEq]
  tauto

namespace Extraction

/-- The fragments of the blocks of one source. -/
def blocks (t : Tree) (m : Markers) (path : Text) : List Fragment :=
  Block.parse m (Text.Utf8.decodeLossy (t.content path))

theorem exists_gather {t : Tree} {m : Markers} {sources : List Text}
    (h : ∀ path ∈ sources, ∃ bytes, t.read path = .ok bytes) (s : Store) :
    ∃ store, gather t m s sources = .ok store := by
  induction sources generalizing s with
  | nil => exact ⟨s, rfl⟩
  | cons path sources ih =>
    obtain ⟨⟨bytes, hbytes⟩, hsources⟩ := List.forall_mem_cons.1 h
    rw [gather, hbytes]
    exact ih hsources _

/-- A source that is read `k` times brings each of its fragments `k` times. -/
theorem count_fragments (t : Tree) (m : Markers) (sources : List Text) (f : Fragment) :
    (fragments t m sources).count f =
      ∑ path ∈ sources.toFinset, sources.count path * (blocks t m path).count f := by
  have hcount : (fragments t m sources).count f =
      (sources.map fun path => (blocks t m path).count f).sum := List.count_flatMap
  -- Texts can be compared in two ways, which agree.
  have hbeq : (instBEqOfDecidableEq : BEq Text) = List.instBEq := lawful_beq_subsingleton _ _
  rw [hcount, Finset.sum_list_map_count, hbeq]
  simp only [Nat.nsmul_eq_mul]

/-- The end of a run that has scanned and gathered, from what writing its store gave. -/
def conclude (scan : Scan) : Except Refusal Report × Tree → Except Error Outcome × Tree
  | (.error refusal, u) => (.error (.file refusal), u)
  | (.ok report, u) => (.ok (outcome scan report), u)

theorem run_eq_conclude {s : Settings} {t : Tree} {scan : Scan} {store : Store}
    (hscan : Scan.ofTexts t s.patterns = .ok scan)
    (hgather : gather t s.markers {} scan.files = .ok store) :
    run s t = conclude scan (store.write s.output s.extension t) := by
  rw [run, hscan]
  simp only [hgather]
  rcases store.write s.output s.extension t with ⟨refusal | report, u⟩ <;> rfl

theorem error_of_conclude {scan : Scan} {r : Except Refusal Report × Tree} {e : Error}
    (h : (conclude scan r).1 = .error e) : ∃ refusal, e = .file refusal := by
  rcases r with ⟨refusal | report, u⟩
  · exact ⟨refusal, (Except.error.inj h).symm⟩
  · cases h

/-- How often the fragments of the scanned files stand in a store. -/
def Multiplies (t : Tree) (m : Markers) (files : List Text) (store : Store) : Prop :=
  ∀ f : Fragment, (store.under f.path f.order).count f.chunk =
    ∑ path ∈ files.toFinset, files.count path * (blocks t m path).count f

theorem multiplies_of_gather {t : Tree} {m : Markers} {files : List Text} {store : Store}
    (h : gather t m {} files = .ok store) : Multiplies t m files store := by
  obtain ⟨-, rfl⟩ := store_of_gather h
  intro f
  rw [Store.count_under_appendAll, count_fragments]

/-- A run ends where its scan does, or it gathers all files of the scan and writes their store. -/
theorem run_cases (s : Settings) (t : Tree) :
    (∃ fault, Scan.ofTexts t s.patterns = .error fault ∧ run s t = (.error (.ofScan fault), t)) ∨
    ∃ scan store, Scan.ofTexts t s.patterns = .ok scan ∧
      gather t s.markers {} scan.files = .ok store ∧
      run s t = conclude scan (store.write s.output s.extension t) := by
  cases hscan : Scan.ofTexts t s.patterns with
  | error fault =>
    refine Or.inl ⟨fault, rfl, ?_⟩
    rw [run, hscan]
  | ok scan =>
    have hfiles : ∀ path ∈ scan.files, ∃ bytes, t.read path = .ok bytes :=
      fun path hpath => Tree.read_of_isRegular (Scan.isRegular_of_mem_files hscan path hpath)
    obtain ⟨store, hstore⟩ := exists_gather hfiles {}
    exact Or.inr ⟨scan, store, rfl, hstore, run_eq_conclude hscan hstore⟩

theorem fst_run_ne_settings (s : Settings) (t : Tree) (lack : Settings.Lack) :
    (run s t).1 ≠ .error (.settings lack) := by
  intro h
  rcases run_cases s t with ⟨fault, -, hrun⟩ | ⟨scan, store, -, -, hrun⟩
  · rw [hrun] at h
    cases fault <;> cases h
  · rw [hrun] at h
    obtain ⟨refusal, hrefusal⟩ := error_of_conclude h
    cases hrefusal

/-- A run is refused for a pattern exactly when its scan is, and then it has done nothing. -/
theorem fst_run_eq_pattern_iff {s : Settings} {t : Tree} {fault : Glob.Fault} :
    (run s t).1 = .error (.pattern fault) ↔ Scan.ofTexts t s.patterns = .error (.pattern fault) := by
  rcases run_cases s t with ⟨fault', hscan, hrun⟩ | ⟨scan, store, hscan, -, hrun⟩
  · rw [hrun, hscan]
    cases fault' <;> simp [Error.ofScan]
  · rw [hrun, hscan]
    refine ⟨fun h => ?_, fun h => nomatch h⟩
    obtain ⟨refusal, hrefusal⟩ := error_of_conclude h
    cases hrefusal

theorem snd_run_of_pattern {s : Settings} {t : Tree} {fault : Glob.Fault}
    (h : Scan.ofTexts t s.patterns = .error (.pattern fault)) : (run s t).2 = t := by
  rw [run, h]

/-- How a run goes up to the point where it writes. -/
structure Starts (s : Settings) (t : Tree) : Prop where
  /-- Settings that lack something are refused, for the first thing that they lack. -/
  settings : ∀ lack, (runChecked s t).1 = .error (.settings lack) ↔
    (Settings.Lack.all.find? fun lack => lack.isOf s) = some lack
  /-- Settings that lack nothing are refused for a pattern exactly when the scan is. -/
  pattern : ∀ fault, (runChecked s t).1 = .error (.pattern fault) ↔
    (∀ lack, Settings.Lack.isOf s lack = false) ∧
      Scan.ofTexts t s.patterns = .error (.pattern fault)
  /-- In both cases the tree stays as it is. -/
  unchanged : ((∃ lack, (runChecked s t).1 = .error (.settings lack)) ∨
    ∃ fault, (runChecked s t).1 = .error (.pattern fault)) → (runChecked s t).2 = t
  /-- Once the scan is through, its files are gathered and their store is written; a file that was scanned `k`
  times has brought each of its fragments `k` times. -/
  gathered : (∀ lack, Settings.Lack.isOf s lack = false) → ∀ scan,
    Scan.ofTexts t s.patterns = .ok scan → ∃ store,
      gather t s.markers {} scan.files = .ok store ∧
      Multiplies t s.markers scan.files store ∧
      runChecked s t = conclude scan (store.write s.output s.extension t)

theorem starts (s : Settings) (t : Tree) : Starts s t := by
  cases hlack : s.lack? with
  | some lack =>
    have hrun : runChecked s t = (.error (.settings lack), t) := by
      rw [runChecked, hlack]
    have hlacks : ¬ ∀ lack, Settings.Lack.isOf s lack = false := by
      rw [← Settings.lack?_eq_none_iff, hlack]
      exact Option.some_ne_none lack
    refine ⟨fun lack' => ?_, fun fault => ?_, fun _ => by rw [hrun], fun hnone => absurd hnone hlacks⟩
    · rw [hrun, ← Settings.lack?_eq_find?, hlack]
      simp
    · rw [hrun]
      simp [hlacks]
  | none =>
    have hrun : runChecked s t = run s t := by
      rw [runChecked, hlack]
    have hlacks := Settings.lack?_eq_none_iff.1 hlack
    refine ⟨fun lack => ?_, fun fault => ?_, ?_, fun _ scan hscan => ?_⟩
    · rw [hrun, ← Settings.lack?_eq_find?, hlack]
      exact ⟨fun h => absurd h (fst_run_ne_settings s t lack), fun h => nomatch h⟩
    · rw [hrun, fst_run_eq_pattern_iff]
      exact ⟨fun h => ⟨hlacks, h⟩, fun h => h.2⟩
    · rw [hrun]
      rintro (⟨lack, h⟩ | ⟨fault, h⟩)
      · exact absurd h (fst_run_ne_settings s t lack)
      · exact snd_run_of_pattern (fst_run_eq_pattern_iff.1 h)
    · rcases run_cases s t with ⟨fault, hfault, -⟩ | ⟨scan', store, hscan', hgather, hconclude⟩
      · rw [hscan] at hfault
        cases hfault
      · obtain rfl := Except.ok.inj (hscan.symm.trans hscan')
        exact ⟨store, hgather, multiplies_of_gather hgather, hrun.trans hconclude⟩

/-- **A scan is a concatenation, and what it refuses is refused before anything is written.**  Where nothing
stands in the way of the patterns, scanning them is joining what each of them matches, up to the first that
cannot be read.  A run is refused for the first thing that its settings lack, or else for that pattern, and
has then changed nothing; otherwise it gathers each file as often as it was scanned, and writes. -/
theorem runChecked_starts (t : Tree) :
    (∀ ps qs, (∀ p ∈ ps ++ qs, Scan.Clear t p) → Scan.Joins t ps qs) ∧ ∀ s : Settings, Starts s t :=
  ⟨fun _ _ hclear => Scan.joins_of_clear hclear, fun s => starts s t⟩

/-- A source, a link to it and a directory. -/
def linkedSource : Tree :=
  Tree.root
    |>.insert [] "a.js".toList (.file (Text.Utf8.encode "/** @scratch /a/1\n * text\n */\n".toList))
    |>.insert [] "b.js".toList (.link "a.js".toList)
    |>.insert [] "c.js".toList .dir

-- The source is kept twice, the link and the directory only count; and the first bad pattern is the fault.
theorem runChecked_starts_linkedSource :
    Scan.Joins linkedSource ["a.js".toList, "b.js".toList] ["c.js".toList, "a.js".toList] ∧
      Scan.ofTexts linkedSource ["a.js".toList, "b.js".toList, "c.js".toList, "a.js".toList] =
        .ok ⟨4, ["a.js".toList, "a.js".toList]⟩ ∧
      Scan.Joins linkedSource ["a.js".toList, "[".toList] ["***".toList] ∧
      Scan.ofTexts linkedSource ["a.js".toList, "[".toList, "***".toList] =
        .error (.pattern ⟨0, .set⟩) := by
  obtain ⟨hjoins, -⟩ := runChecked_starts linkedSource
  refine ⟨hjoins _ _ ?_, by decide +kernel, hjoins _ _ ?_, by decide +kernel⟩
  · unfold Scan.Clear
    decide +kernel
  · unfold Scan.Clear
    decide +kernel

end Extraction

end Docblocks
