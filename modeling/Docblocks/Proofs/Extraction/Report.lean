/-
# Docblocks.Proofs.Extraction.Report — the outcome of a run accounts for every document.

The writer looks at each target when its turn comes, in the tree that the documents before it have left, and
the report grows by one target a turn.  `Labels` is the invariant: a fate for every path such that the two
lists of the report are the targets of the two fates, in the order of the paths, and the fate of a path was
decided by its target at its turn.  One more document in front keeps it (`Labels.cons`), so a whole run has
it.  The outcome adds what was scanned, and messages that say the same in words.
-/
import Docblocks.Proofs.Extraction
import Docblocks.Proofs.Store.History
import Docblocks.Proofs.Writing.Refusal

namespace Docblocks

namespace Writing

/-! ## The fates of documents -/

/-- `fate` tells what became of the documents of `paths` in a run on `t` that ended with `report`. -/
structure Labels (t : Tree) (doc : Text → Text × List UInt8) (paths : List Text) (report : Report)
    (fate : Text → Fate) : Prop where
  /-- The written targets are those of the paths with that fate. -/
  written : report.written = (paths.filter fun path => fate path = .written).map fun path => (doc path).1
  /-- So are the skipped ones. -/
  skipped : report.skipped = (paths.filter fun path => fate path = .skipped).map fun path => (doc path).1
  /-- A path is skipped exactly when the documents before it have left a tree in which its target leads to
  a file. -/
  decided : ∀ before path after, paths = before ++ path :: after → ∃ report' v,
    placeAll t (before.map doc) = (.ok report', v) ∧
      (fate path = .skipped ↔ v.isFile (doc path).1 = true)

variable {t u : Tree} {doc : Text → Text × List UInt8} {paths : List Text} {report : Report}

theorem labels_nil (t : Tree) (doc : Text → Text × List UInt8) :
    Labels t doc [] {} fun _ => .written :=
  ⟨rfl, rfl, fun _ _ _ h => by simp at h⟩

theorem Placing.skipped_iff {target : Text} {bytes : List UInt8} {fate : Fate}
    (h : Placing t target bytes (.ok fate) u) : fate = .skipped ↔ t.isFile target = true := by
  rw [h.fate_eq]
  cases t.isFile target <;> simp

/-- The fate of a document is put before those of the documents behind it. -/
theorem Labels.cons {fate : Text → Fate} {first : Fate} {path : Text} (hnew : path ∉ paths)
    (hplace : place t (doc path).1 (doc path).2 = (.ok first, u)) (h : Labels u doc paths report fate) :
    Labels t doc (path :: paths) (report.cons first (doc path).1)
      fun p => if p = path then first else fate p := by
  have hrest : ∀ label : Fate, (paths.filter fun p => (if p = path then first else fate p) = label) =
      paths.filter fun p => fate p = label := by
    intro label
    refine List.filter_congr fun p hp => ?_
    have hne : p ≠ path := fun heq => hnew (heq ▸ hp)
    rw [if_neg hne]
  refine ⟨?_, ?_, fun before p after hsplit => ?_⟩
  · rw [List.filter_cons, hrest]
    cases first <;> simp [Report.cons, h.written]
  · rw [List.filter_cons, hrest]
    cases first <;> simp [Report.cons, h.skipped]
  · cases before with
    | nil =>
      obtain ⟨rfl, _⟩ := List.cons.inj hsplit
      exact ⟨{}, t, rfl, by rw [if_pos rfl]; exact (placing_of_place hplace).skipped_iff⟩
    | cons q before =>
      obtain ⟨rfl, hpaths⟩ := List.cons.inj hsplit
      obtain ⟨report', v, hrun, hdecided⟩ := h.decided before p after hpaths
      have hp : p ≠ path := by
        rintro rfl
        apply hnew
        rw [hpaths]
        exact List.mem_append_right before List.mem_cons_self
      refine ⟨report'.cons first (doc path).1, v, ?_, by rw [if_neg hp]; exact hdecided⟩
      show placeAll t (doc path :: before.map doc) = _
      rw [placeAll, hplace]
      simp only [hrun]

/-- A run that ends with a report has a fate for each of its documents. -/
theorem exists_labels (hpaths : paths.Nodup) (h : placeAll t (paths.map doc) = (.ok report, u)) :
    ∃ fate, Labels t doc paths report fate := by
  induction paths generalizing t report with
  | nil =>
    cases h
    exact ⟨_, labels_nil u doc⟩
  | cons path paths ih =>
    obtain ⟨hnew, hpaths⟩ := List.nodup_cons.1 hpaths
    obtain ⟨first, v, report', hplace, hrest, rfl⟩ := placeAll_cons_eq_ok h
    obtain ⟨fate, hfate⟩ := ih hpaths hrest
    exact ⟨_, hfate.cons hnew hplace⟩

/-- Every path has one of the two fates. -/
theorem Labels.length_eq {fate : Text → Fate} (h : Labels t doc paths report fate) :
    report.written.length + report.skipped.length = paths.length := by
  rw [h.written, h.skipped, List.length_map, List.length_map]
  clear h
  induction paths with
  | nil => rfl
  | cons path paths ih =>
    rw [List.filter_cons, List.filter_cons]
    cases fate path <;> simp <;> omega

end Writing

namespace Extraction

/-! ## The outcome -/

/-- What the outcome `o` of a run on `t` tells, when the run scanned `scan` and gathered `store`. -/
structure Tells (s : Settings) (t : Tree) (scan : Scan) (store : Store) (o : Outcome) : Prop where
  /-- Every path has a fate.  It is skipped exactly when its target led to a file at its turn, in the tree
  that writing the documents before it leaves; and the outcome lists the targets of each fate in the order
  of the paths. -/
  documents : ∃ fate : Text → Fate,
    (∀ k path, store.paths[k]? = some path → ∃ report v,
      (store.upTo k).write s.output s.extension t = (.ok report, v) ∧
        (fate path = .skipped ↔ v.isFile (Document.target s.output s.extension path) = true)) ∧
    o.written = (store.paths.filter fun path => fate path = .written).map
      (Document.target s.output s.extension) ∧
    o.skipped = (store.paths.filter fun path => fate path = .skipped).map
      (Document.target s.output s.extension)
  /-- No document is counted twice, and none is left out. -/
  counted : o.written.length + o.skipped.length = store.paths.length
  matched : o.matched = scan.matched
  processed : o.processed = scan.files
  /-- What the user is told, from the first line to the last, with all counts as decimal numerals. -/
  messages : o.messages =
    [⟨.info, (Nat.repr scan.matched).toList ++ " paths matched. Processing.".toList⟩] ++
    scan.files.map (fun file => ⟨.info, "Processed: ".toList ++ file⟩) ++
    o.skipped.map (fun target => ⟨.warning, target ++ " already exists, not overwriting".toList⟩) ++
    o.written.map (fun target => ⟨.success, "Wrote: ".toList ++ target⟩) ++
    [⟨.info, "Wrote ".toList ++ (Nat.repr o.written.length).toList ++ " file(s), skipped ".toList ++
      (Nat.repr o.skipped.length).toList ++ ['.']⟩]

/-- What the outcome tells follows from the fates of the documents. -/
theorem tells_outcome {s : Settings} {t : Tree} {scan : Scan} {store : Store} {report : Report}
    {fate : Text → Fate}
    (h : Writing.Labels t (fun path => (Document.target s.output s.extension path,
      Text.Utf8.encode (store.text path))) store.paths report fate) :
    Tells s t scan store (outcome scan report) where
  documents := by
    refine ⟨fate, fun k path hk => ?_, h.written, h.skipped⟩
    obtain ⟨hlt, rfl⟩ := List.getElem?_eq_some_iff.1 hk
    have hsplit : store.paths =
        store.paths.take k ++ store.paths[k] :: store.paths.drop (k + 1) := by
      rw [List.getElem_cons_drop, List.take_append_drop]
    obtain ⟨report', v, hrun, hdecided⟩ := h.decided _ _ _ hsplit
    refine ⟨report', v, ?_, hdecided⟩
    rw [Store.write, Store.outputs_upTo, Store.outputs, ← List.map_take]
    exact hrun
  counted := h.length_eq
  matched := rfl
  processed := rfl
  messages := by
    simp only [← Message.count_eq_repr]
    rfl

/-- **The outcome accounts for every document exactly once.**  The paths of the gathered store ascend, so they
are distinct; each of them is written or skipped, as its target decides at its turn; and the lists and the
messages of the outcome say that and nothing else. -/
theorem run_tells (s : Settings) (t u : Tree) (o : Outcome) (hrun : run s t = (.ok o, u)) :
    ∃ scan store, Scan.ofTexts t s.patterns = .ok scan ∧
      gather t s.markers {} scan.files = .ok store ∧
      (store.paths.Pairwise fun p q => Text.order p q = .lt) ∧ Tells s t scan store o := by
  obtain ⟨scan, store, report, hscan, hgather, hwrite, rfl⟩ := run_eq_ok hrun
  obtain ⟨_, rfl⟩ := store_of_gather hgather
  have hordered := Store.ordered_empty.appendAll (fragments t s.markers scan.files)
  obtain ⟨fate, hfate⟩ := Writing.exists_labels hordered.paths.nodup hwrite
  refine ⟨scan, _, hscan, hgather, ?_, tells_outcome hfate⟩
  exact hordered.paths.imp Text.order_of_lt

/-- A source with three blocks, two of which share a target; a directory beside it; and an old file where the
third block goes. -/
def crowded : Tree :=
  ((((Tree.root.insert [] "src".toList .dir).insert ["src".toList]
    "a.js".toList (.file (Text.Utf8.encode
      ("/** @scratch /a/1\n * first\n */\n".toList ++ "/** @scratch a/1\n * second\n */\n".toList ++
        "/** @scratch /old/1\n * new\n */\n".toList)))).insert ["src".toList]
    "sub".toList .dir).insert []
    "docs".toList .dir).insert ["docs".toList]
    "old.txt".toList (.file (Text.Utf8.encode "old\n".toList))

/-- The source twice, with the directory in between. -/
def repeated : Settings where
  patterns := ["src/a.js".toList, "src/sub".toList, "src/a.js".toList]
  output := "docs".toList

-- When the turn of `a` comes, its target is the file that the document of `/a` has become.
theorem run_tells_crowded :
    ∃ o u scan store, run repeated crowded = (.ok o, u) ∧ o.matched = 3 ∧
      o.processed = ["src/a.js".toList, "src/a.js".toList] ∧ o.written = ["docs/a.txt".toList] ∧
      o.skipped = ["docs/old.txt".toList, "docs/a.txt".toList] ∧
      Tells repeated crowded scan store o := by
  have hok : ((run repeated crowded).1.toOption.map fun o =>
      (o.matched, o.processed, o.written, o.skipped)) =
        some (3, ["src/a.js".toList, "src/a.js".toList], ["docs/a.txt".toList],
          ["docs/old.txt".toList, "docs/a.txt".toList]) := by decide +kernel
  rcases hrun : run repeated crowded with ⟨r, u⟩
  rw [hrun] at hok
  cases r with
  | error e => cases hok
  | ok o =>
    simp only [Except.toOption, Option.map_some, Option.some.injEq, Prod.mk.injEq] at hok
    obtain ⟨hmatched, hprocessed, hwritten, hskipped⟩ := hok
    obtain ⟨scan, store, _, _, _, htells⟩ := run_tells repeated crowded u o hrun
    exact ⟨o, u, scan, store, rfl, hmatched, hprocessed, hwritten, hskipped, htells⟩

end Extraction

end Docblocks
