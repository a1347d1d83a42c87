/-
# Docblocks.Proofs.Extraction — what a whole run does to a plain tree.

A run is specified by its sources alone.  Their fragments, in the order of the sources, determine one
document for each path: the lines of the path's fragments, sorted by order key.  `Delivers` says that
each document is the file at its target unless a file was there before, and that nothing else about
files changes.  The main result is that every run on a plain tree that ends with an outcome delivers, as
long as no target has a piece of two dots and different paths have targets with different names.
-/
import Docblocks.Extraction
import Docblocks.Proofs.Store
import Docblocks.Proofs.Writing.Plain

namespace Docblocks

/-! ## The specification -/

/-- The bytes of the file that a path leads to; none where it leads to no file. -/
def Tree.content (t : Tree) (path : Text) : List UInt8 :=
  match t.entry? path with
  | some (.file content) => content
  | _ => []

namespace Extraction

/-- The fragments of all blocks of the sources, one source after the other. -/
def fragments (t : Tree) (m : Markers) (sources : List Text) : List Fragment :=
  sources.flatMap fun path => Block.parse m (Text.Utf8.decodeLossy (t.content path))

/-- The document of a path: the lines of its fragments by ascending order key, those under one key in
the order of the fragments, with nothing between them. -/
def document (fs : List Fragment) (path : Text) : Text :=
  ((sortBy Fragment.order (fs.filter fun f => f.path = path)).flatMap fun f => f.chunk.lines).flatten

/-- What a run with these fragments has done when it took the tree `t` to `u`. -/
structure Delivers (fs : List Fragment) (target : Text → Text) (t u : Tree) (o : Outcome) :
    Prop where
  /-- A document whose target was a file is skipped, and the file stays. -/
  skipped : ∀ f ∈ fs, t.isFile (target f.path) = true →
    target f.path ∈ o.skipped ∧ u.entry? (target f.path) = t.entry? (target f.path)
  /-- Any other document is written, and its target leads to a file with its text. -/
  written : ∀ f ∈ fs, t.isFile (target f.path) = false →
    target f.path ∈ o.written ∧
      u.entry? (target f.path) = some (.file (Text.Utf8.encode (document fs f.path)))
  /-- Only documents are reported. -/
  reported : ∀ x, (x ∈ o.skipped → ∃ f ∈ fs, t.isFile (target f.path) = true ∧ x = target f.path) ∧
    (x ∈ o.written → ∃ f ∈ fs, t.isFile (target f.path) = false ∧ x = target f.path)
  /-- Every old file stays as it was. -/
  kept : ∀ l content, t.get? l = some (.file content) → u.get? l = some (.file content)
  /-- Every new file is the document at a written target. -/
  appeared : ∀ l content, u.get? l = some (.file content) →
    t.get? l = some (.file content) ∨ ∃ f ∈ fs, t.isFile (target f.path) = false ∧
      u.locate .target (target f.path) = .ok (.found l)
  /-- Every new directory is above a written target. -/
  sheltered : ∀ l, u.get? l = some .dir → t.get? l = some .dir ∨
    ∃ f ∈ fs, t.isFile (target f.path) = false ∧
      ∃ k, u.locate .target (target f.path) = .ok (.found k) ∧ l <:+ k ∧ l ≠ k

/-! ## Gathering -/

theorem entry?_of_read {t : Tree} {path : Text} {bytes : List UInt8} (h : t.read path = .ok bytes) :
    ∃ e, t.entry? path = some e ∧ e ≠ .dir ∧ t.content path = bytes := by
  unfold Tree.read at h
  cases hlook : t.look .target path with
  | error cause => simp [hlook] at h
  | ok e =>
    have hentry : t.entry? path = some e := by
      rw [Tree.entry?, hlook]
      rfl
    refine ⟨e, hentry, ?_⟩
    cases e <;> simp_all [Tree.content]

/-- What can be read in a plain tree is a file. -/
theorem isFile_of_read {t : Tree} {path : Text} {bytes : List UInt8} (hplain : t.Plain)
    (h : t.read path = .ok bytes) : t.isFile path = true := by
  obtain ⟨e, hentry, hdir, _⟩ := entry?_of_read h
  obtain ⟨l, _, hl⟩ := Tree.entry?_eq_some_iff.1 hentry
  have he := hplain.isPlain hl
  cases e with
  | dir => exact absurd rfl hdir
  | link text => cases he
  | device => cases he
  | file content => simp only [Tree.isFile, hentry]

theorem fragments_cons (t : Tree) (m : Markers) (path : Text) (sources : List Text) :
    fragments t m (path :: sources) =
      Block.parse m (Text.Utf8.decodeLossy (t.content path)) ++ fragments t m sources := by
  rw [fragments, List.flatMap_cons]
  rfl

/-- The sources that are gathered can all be read, and their fragments come into the store. -/
theorem store_of_gather {t : Tree} {m : Markers} {s store : Store} {sources : List Text}
    (h : gather t m s sources = .ok store) :
    (∀ path ∈ sources, ∃ bytes, t.read path = .ok bytes) ∧
      store = s.appendAll (fragments t m sources) := by
  induction sources generalizing s with
  | nil =>
    rw [gather] at h
    cases h
    exact ⟨by simp, rfl⟩
  | cons path sources ih =>
    rw [gather] at h
    cases hread : t.read path with
    | error cause => simp [hread] at h
    | ok bytes =>
      obtain ⟨_, _, _, hcontent⟩ := entry?_of_read hread
      simp only [hread] at h
      obtain ⟨hfiles, hstore⟩ := ih h
      refine ⟨?_, ?_⟩
      · intro path' hpath'
        rcases List.mem_cons.1 hpath' with rfl | hpath'
        · exact ⟨bytes, hread⟩
        · exact hfiles path' hpath'
      · rw [hstore, Store.absorb, fragments_cons, hcontent]
        simp only [Store.appendAll, List.foldl_append]

theorem gather_eq_ok {t : Tree} {m : Markers} {s store : Store} {sources : List Text}
    (hplain : t.Plain) (h : gather t m s sources = .ok store) :
    (∀ path ∈ sources, t.isFile path = true) ∧ store = s.appendAll (fragments t m sources) := by
  obtain ⟨hread, hstore⟩ := store_of_gather h
  refine ⟨fun path hpath => ?_, hstore⟩
  obtain ⟨bytes, hbytes⟩ := hread path hpath
  exact isFile_of_read hplain hbytes

/-- The text that is written for a path is its document. -/
theorem text_appendAll (fs : List Fragment) (path : Text) :
    (Store.appendAll {} fs).text path = document fs path := by
  rw [Store.text_eq_flatten, Store.chunks_appendAll, document, List.flatMap_map]

/-! ## Targets -/

/-- Targets below one root, of which no two have the same names, have different spots. -/
theorem spot_ne {root extension p q : Text} (hroot : root ≠ []) (cwd : Location)
    (hp : ['.', '.'] ∉ Text.pieces '/' (Document.target root extension p))
    (hq : ['.', '.'] ∉ Text.pieces '/' (Document.target root extension q))
    (hne : Path.parts (Document.target root extension p) ≠
      Path.parts (Document.target root extension q)) :
    Tree.spot cwd (Document.target root extension p) ≠
      Tree.spot cwd (Document.target root extension q) := by
  -- All targets begin with the root, so their walks start at one location.
  have hbase : ∀ path, Tree.base cwd (Document.target root extension path) = Tree.base cwd root := by
    intro path
    cases root with
    | nil => exact absurd rfl hroot
    | cons c root => rfl
  intro heq
  rw [Tree.spot, Tree.spot, hbase, hbase] at heq
  have hnames := List.reverse_injective (List.append_cancel_right heq)
  rw [Path.names_steps (by rw [Path.up_mem_steps]; exact hp),
    Path.names_steps (by rw [Path.up_mem_steps]; exact hq)] at hnames
  exact hne hnames

theorem output_ne_nil {s : Settings} (h : s.lack? = none) : s.output ≠ [] := by
  intro hnil
  by_cases hpatterns : s.patterns.isEmpty <;> simp [Settings.lack?, hnil, hpatterns] at h

/-- A run that ends with an outcome has scanned its patterns, read its sources and written its store. -/
theorem run_eq_ok {s : Settings} {t u : Tree} {o : Outcome} (h : run s t = (.ok o, u)) :
    ∃ scan store report, Scan.ofTexts t s.patterns = .ok scan ∧
      gather t s.markers {} scan.files = .ok store ∧
      store.write s.output s.extension t = (.ok report, u) ∧ o = outcome scan report := by
  unfold run at h
  cases hscan : Scan.ofTexts t s.patterns with
  | error fault => simp [hscan] at h
  | ok scan =>
    cases hgather : gather t s.markers {} scan.files with
    | error refusal => simp [hscan, hgather] at h
    | ok store =>
      rcases hwrite : store.write s.output s.extension t with ⟨r, v⟩
      simp only [hscan, hgather, hwrite] at h
      cases r with
      | error refusal => cases h
      | ok report =>
        cases h
        exact ⟨scan, store, report, rfl, hgather, hwrite, rfl⟩

theorem runChecked_eq_ok {s : Settings} {t u : Tree} {o : Outcome}
    (h : runChecked s t = (.ok o, u)) :
    s.output ≠ [] ∧ ∃ store report, gather t s.markers {} o.processed = .ok store ∧
      store.write s.output s.extension t = (.ok report, u) ∧ o.written = report.written ∧
      o.skipped = report.skipped := by
  unfold runChecked at h
  cases hlack : s.lack? with
  | some lack => simp [hlack] at h
  | none =>
    simp only [hlack] at h
    obtain ⟨scan, store, report, _, hgather, hwrite, rfl⟩ := run_eq_ok h
    exact ⟨output_ne_nil hlack, store, report, hgather, hwrite, rfl, rfl⟩

/-! ## Delivery -/

theorem mem_paths {fs : List Fragment} {path : Text} :
    path ∈ (Store.appendAll {} fs).paths ↔ ∃ f ∈ fs, f.path = path := by
  rw [Store.mem_paths_appendAll]
  simp [Store.paths, Keyed.keys]

theorem mem_outputs {fs : List Fragment} {root extension : Text} {doc : Text × List UInt8} :
    doc ∈ (Store.appendAll {} fs).outputs root extension ↔
      ∃ f ∈ fs, doc = (Document.target root extension f.path,
        Text.Utf8.encode (document fs f.path)) := by
  rw [Store.outputs, List.mem_map]
  constructor
  · rintro ⟨path, hpath, rfl⟩
    obtain ⟨f, hf, rfl⟩ := mem_paths.1 hpath
    exact ⟨f, hf, by rw [text_appendAll]⟩
  · rintro ⟨f, hf, rfl⟩
    exact ⟨f.path, mem_paths.2 ⟨f, hf, rfl⟩, by rw [text_appendAll]⟩

/-- What was written to a plain tree delivers the fragments it was made from. -/
theorem delivers_of_wroteAll {fs : List Fragment} {root extension : Text} {t u : Tree}
    {report : Report} {o : Outcome}
    (h : Writing.WroteAll t u ((Store.appendAll {} fs).outputs root extension) report)
    (hwritten : o.written = report.written) (hskipped : o.skipped = report.skipped) :
    Delivers fs (Document.target root extension) t u o where
  skipped := by
    intro f hf hfile
    refine ⟨?_, ?_⟩
    · rw [hskipped, h.skipped]
      exact List.mem_map.2 ⟨_, List.mem_filter.2 ⟨mem_outputs.2 ⟨f, hf, rfl⟩, hfile⟩, rfl⟩
    · obtain ⟨k, content, hloc, hget⟩ := Tree.isFile_iff.1 hfile
      rw [Tree.entry?_eq_some_iff.2 ⟨k, hloc, hget⟩]
      exact Tree.entry?_eq_some_iff.2
        ⟨k, h.adds.grows.locate hloc, h.adds.kept k _ hget⟩
  written := by
    intro f hf hnot
    have hdoc : (Document.target root extension f.path, Text.Utf8.encode (document fs f.path)) ∈
        (Store.appendAll {} fs).outputs root extension := mem_outputs.2 ⟨f, hf, rfl⟩
    refine ⟨?_, ?_⟩
    · rw [hwritten, h.written]
      exact List.mem_map.2 ⟨_, List.mem_filter.2 ⟨hdoc, by simp [hnot]⟩, rfl⟩
    · exact Tree.entry?_eq_some_iff.2 ⟨_, h.leads _ hdoc hnot, h.holds _ hdoc hnot⟩
  reported := by
    intro x
    rw [hwritten, hskipped, h.written, h.skipped]
    constructor
    · intro hx
      obtain ⟨doc, hdoc, rfl⟩ := List.mem_map.1 hx
      obtain ⟨hdoc, hfile⟩ := List.mem_filter.1 hdoc
      obtain ⟨f, hf, rfl⟩ := mem_outputs.1 hdoc
      exact ⟨f, hf, hfile, rfl⟩
    · intro hx
      obtain ⟨doc, hdoc, rfl⟩ := List.mem_map.1 hx
      obtain ⟨hdoc, hnot⟩ := List.mem_filter.1 hdoc
      obtain ⟨f, hf, rfl⟩ := mem_outputs.1 hdoc
      exact ⟨f, hf, by simpa using hnot, rfl⟩
  kept := fun l content hl => h.adds.kept l _ hl
  appeared := by
    intro l content hl
    refine (h.adds.only l _ hl).imp_right ?_
    rintro ⟨doc, hdoc, hnot, hnew⟩
    have hleads := h.leads doc hdoc hnot
    obtain ⟨f, hf, rfl⟩ := mem_outputs.1 hdoc
    rcases hnew with ⟨rfl, _⟩ | ⟨hdir, _⟩
    · exact ⟨f, hf, hnot, hleads⟩
    · cases hdir
  sheltered := by
    intro l hl
    refine (h.adds.only l _ hl).imp_right ?_
    rintro ⟨doc, hdoc, hnot, hnew⟩
    have hleads := h.leads doc hdoc hnot
    have hholds := h.holds doc hdoc hnot
    obtain ⟨f, hf, rfl⟩ := mem_outputs.1 hdoc
    rcases hnew with ⟨_, hfile⟩ | ⟨_, habove⟩
    · cases hfile
    · refine ⟨f, hf, hnot, _, hleads, habove.trans (List.tail_suffix _), ?_⟩
      rintro rfl
      rw [hl] at hholds
      cases hholds

/-- Every run on a plain tree that ends with an outcome has read files alone and delivers their
fragments, if no target has a piece of two dots and the targets of different paths have different names
once empty pieces and dots are dropped. -/
theorem runChecked_delivers (s : Settings) (t u : Tree) (o : Outcome) (hplain : t.Plain)
    (hrun : runChecked s t = (.ok o, u))
    (hdots : ∀ f ∈ fragments t s.markers o.processed,
      ['.', '.'] ∉ Text.pieces '/' (Document.target s.output s.extension f.path))
    (hnames : ∀ f ∈ fragments t s.markers o.processed, ∀ g ∈ fragments t s.markers o.processed,
      f.path ≠ g.path → Path.parts (Document.target s.output s.extension f.path) ≠
        Path.parts (Document.target s.output s.extension g.path)) :
    (∀ path ∈ o.processed, t.isFile path = true) ∧
      Delivers (fragments t s.markers o.processed) (Document.target s.output s.extension) t u o := by
  obtain ⟨houtput, store, report, hgather, hwrite, hwritten, hskipped⟩ := runChecked_eq_ok hrun
  obtain ⟨hfiles, rfl⟩ := gather_eq_ok hplain hgather
  refine ⟨hfiles, delivers_of_wroteAll (Writing.placeAll_plain hwrite hplain ?_ ?_) hwritten hskipped⟩
  · intro doc hdoc
    obtain ⟨f, hf, rfl⟩ := mem_outputs.1 hdoc
    rw [Path.up_mem_steps]
    exact hdots f hf
  · -- The paths of the store ascend, so no two of them are equal.
    have hpaths := (Store.ordered_empty.appendAll (fragments t s.markers o.processed)).paths
    refine List.pairwise_map.2 (List.Pairwise.imp_of_mem ?_ hpaths)
    intro p q hp hq hlt
    obtain ⟨f, hf, rfl⟩ := mem_paths.1 hp
    obtain ⟨g, hg, rfl⟩ := mem_paths.1 hq
    exact spot_ne houtput t.cwd (hdots f hf) (hdots g hg) (hnames f hf g hg (ne_of_lt hlt))

/-- Two sources with three blocks, and an old file where one of the two documents goes. -/
def twoSources : Tree :=
  (((Tree.root.insert [] "a.js".toList (.file (Text.Utf8.encode
      ("/** @scratch /guide/use/2\n * second\n */\n".toList ++
        "/** @scratch /old/1\n * new\n */\n".toList)))).insert []
    "b.js".toList (.file (Text.Utf8.encode
      "/** @scratch /guide/use/1\n * first\n */\n".toList))).insert []
    "docs".toList .dir).insert ["docs".toList]
    "old.txt".toList (.file (Text.Utf8.encode "old\n".toList))

/-- Both sources by name, and documents below `docs`. -/
def bothNames : Settings where
  patterns := ["a.js".toList, "b.js".toList]
  output := "docs".toList

theorem runChecked_delivers_twoSources :
    ∃ o u, runChecked bothNames twoSources = (.ok o, u) ∧
      o.written = ["docs/guide/use.txt".toList] ∧ o.skipped = ["docs/old.txt".toList] ∧
      u.entry? "docs/guide/use.txt".toList =
        some (.file (Text.Utf8.encode "first\nsecond\n".toList)) ∧
      Delivers (fragments twoSources bothNames.markers o.processed)
        (Document.target bothNames.output bothNames.extension) twoSources u o := by
  have hplain : twoSources.Plain := by
    unfold Tree.Plain
    decide +kernel
  have hok : ((runChecked bothNames twoSources).1.toOption.map fun o =>
      (o.processed, o.written, o.skipped)) = some (["a.js".toList, "b.js".toList],
        ["docs/guide/use.txt".toList], ["docs/old.txt".toList]) := by decide +kernel
  have hentry : Tree.entry? (runChecked bothNames twoSources).2 "docs/guide/use.txt".toList =
      some (.file (Text.Utf8.encode "first\nsecond\n".toList)) := by decide +kernel
  rcases hrun : runChecked bothNames twoSources with ⟨r, u⟩
  rw [hrun] at hok hentry
  cases r with
  | error e => cases hok
  | ok o =>
    simp only [Except.toOption, Option.map_some, Option.some.injEq, Prod.mk.injEq] at hok
    obtain ⟨hprocessed, hwritten, hskipped⟩ := hok
    refine ⟨o, u, rfl, hwritten, hskipped, hentry, ?_⟩
    refine (runChecked_delivers bothNames twoSources u o hplain hrun ?_ ?_).2
    · rw [hprocessed]
      decide +kernel
    · rw [hprocessed]
      decide +kernel

end Extraction

end Docblocks
