/-
# Docblocks.Proofs.Writing.Linkless — writing documents to a tree without links.

Without links a target says by itself at which location its document goes, its landing, so two documents
meet exactly when their targets have one landing.  A new file stands at the landing of the target that it
was made for (`landing_of_makes`).  The main result is about fresh targets, which lead nowhere before the
run.  A document can still be skipped then, because a document before it has made the file; which
documents these are can be read off the targets.
-/
import Docblocks.Proofs.Tree.Plain
import Docblocks.Proofs.Writing.Growth

namespace Docblocks.Writing

variable {t u : Tree} {docs : List (Text × List UInt8)}

/-! ## Runs on a tree without links -/

/-- A run makes no links. -/
theorem linkless_placeAll (h : t.Linkless) (docs : List (Text × List UInt8)) :
    (placeAll t docs).2.Linkless := by
  rw [Tree.linkless_iff] at h ⊢
  intro l text hl
  exact h l text (get?_of_placeAll hl (by simp) (by simp))

/-- The tree at a turn is without links and still holds what was there. -/
theorem tree_of_mem_turns (h : t.Linkless) {turn : Turn} (hturn : turn ∈ turns t docs) :
    turn.tree.Linkless ∧ Tree.Grows t turn.tree := by
  refine ⟨?_, (of_mem_turns hturn).1⟩
  obtain ⟨before, after, hturns⟩ := List.append_of_mem hturn
  obtain ⟨⟨report, hrun⟩, _⟩ := placeAll_of_turns hturns
  have hlinks := linkless_placeAll h (before.map Turn.doc)
  rw [hrun] at hlinks
  exact hlinks

/-- A new file stands at the landing of its target. -/
theorem landing_of_makes (h : t.Linkless) {turn : Turn} (hturn : turn ∈ turns t docs) {l : Location}
    (hmakes : turn.Makes l) : l = Tree.landing t.cwd turn.target := by
  obtain ⟨_, v, d, n, hshelter, hloc, rfl⟩ := hmakes
  obtain ⟨hlinks, hgrows⟩ := tree_of_mem_turns h hturn
  have hadds := adds_shelter hshelter
  have hlanding := Tree.landing_of_locate hloc (hlinks.adds_dirs hadds)
  rw [hadds.cwd, hgrows.cwd] at hlanding
  exact hlanding

/-- A target that leads to a file at its turn leads to its landing. -/
theorem file_of_skips (h : t.Linkless) {turn : Turn} (hturn : turn ∈ turns t docs)
    (hskips : turn.skips = true) :
    ∃ content,
      turn.tree.locate .target turn.target = .ok (.found (Tree.landing t.cwd turn.target)) ∧
      turn.tree.get? (Tree.landing t.cwd turn.target) = some (.file content) := by
  obtain ⟨hlinks, hgrows⟩ := tree_of_mem_turns h hturn
  obtain ⟨k, content, hloc, hget⟩ := Tree.isFile_iff.1 hskips
  have hk : k = Tree.landing t.cwd turn.target := by
    rw [← hgrows.cwd]
    exact Tree.landing_of_locate hloc hlinks
  rw [← hk]
  exact ⟨content, hloc, hget⟩

/-- The file that a skipped document would have gone to was made for an earlier document with the same
landing, or has been there from the start. -/
theorem landing_of_skips (h : t.Linkless) {before after : List Turn} {turn : Turn}
    (hturns : turns t docs = before ++ turn :: after) (hskips : turn.skips = true) :
    (∃ earlier ∈ before, earlier.skips = false ∧
        Tree.landing t.cwd earlier.target = Tree.landing t.cwd turn.target) ∨
      ∃ content, t.get? (Tree.landing t.cwd turn.target) = some (.file content) := by
  have hturn : turn ∈ turns t docs := by rw [hturns]; simp
  obtain ⟨content, _, hget⟩ := file_of_skips h hturn hskips
  obtain ⟨⟨report, hrun⟩, hbefore⟩ := placeAll_of_turns hturns
  have hget' : (placeAll t (before.map Turn.doc)).2.get? (Tree.landing t.cwd turn.target) =
      some (.file content) := by
    rw [hrun]
    exact hget
  rcases origin_placeAll hget' with ⟨e, he, hgrows⟩ | hdir | ⟨_, earlier, hearlier, hmakes⟩
  · refine Or.inr ?_
    rw [he]
    cases e with
    | file content => exact ⟨content, rfl⟩
    | dir => cases hgrows
    | link text => cases hgrows
    | device => cases hgrows
  · cases hdir
  · have hlanding := landing_of_makes h hearlier hmakes
    rw [hbefore] at hearlier
    exact Or.inl ⟨earlier, hearlier, hmakes.1, hlanding.symm⟩

/-- A settled document is at the landing of its target. -/
theorem Settled.get?_landing {target : Text} {bytes : List UInt8} (h : Settled t target bytes)
    (hlinks : t.Linkless) : ∃ e, t.get? (Tree.landing t.cwd target) = some e ∧ e ≠ .dir := by
  rcases h with hfile | ⟨_, _, l, hloc, hget⟩
  · obtain ⟨k, content, hloc, hget⟩ := Tree.isFile_iff.1 hfile
    rw [← Tree.landing_of_locate hloc hlinks]
    exact ⟨_, hget, by simp⟩
  · rw [← Tree.landing_of_locate hloc hlinks]
    exact ⟨_, hget, by simp⟩

/-! ## Fresh targets -/

/-- A document whose target is fresh and has no two dots is skipped when a document before it has the
same landing. -/
theorem skips_of_landing {report : Report} (h : t.Linkless)
    (hrun : placeAll t docs = (.ok report, u)) {before after : List Turn} {earlier turn : Turn}
    (hturns : turns t docs = before ++ turn :: after) (hearlier : earlier ∈ before)
    (hlanding : Tree.landing t.cwd earlier.target = Tree.landing t.cwd turn.target)
    (hfresh : t.leads turn.target = false) (hup : .up ∉ Path.steps turn.target) :
    turn.skips = true := by
  have hturn : turn ∈ turns t docs := by rw [hturns]; simp
  obtain ⟨hlinks, hgrows⟩ := tree_of_mem_turns h hturn
  obtain ⟨⟨report', hrun'⟩, hbefore⟩ := placeAll_of_turns hturns
  -- The earlier document is at the landing when the later one has its turn.
  obtain ⟨e, he, hdir⟩ := (settled_placeAll hrun' (List.mem_map_of_mem hearlier)).get?_landing hlinks
  rw [hgrows.cwd] at he
  change turn.tree.get? (Tree.landing t.cwd earlier.target) = some e at he
  rw [hlanding] at he
  obtain ⟨fate, v, hplacing, _⟩ := place_of_mem_turns hrun hturn
  cases hplacing with
  | skipped hfile => exact hfile
  | @made v d n hfile hshelter hloc =>
    -- The name is not free.
    have hadds := adds_shelter hshelter
    have hn : n :: d = Tree.landing t.cwd turn.target := by
      rw [← hgrows.cwd, ← hadds.cwd]
      exact Tree.landing_of_locate hloc (hlinks.adds_dirs hadds)
    obtain ⟨_, hvacant⟩ : v.get? d = some .dir ∧ v.get? (n :: d) = none := Tree.sound_of_locate hloc
    rw [hn, hadds.kept _ _ he] at hvacant
    cases hvacant
  | @added v l content hfile hshelter hloc hget =>
    have hopened : turn.opened? = some l := (opened?_eq_some_iff hfile hshelter).2 hloc
    have hold := get?_of_shelter hshelter hget (by simp)
    exact absurd (Path.up_mem_steps.2 (dots_of_opened? hopened hold).1) hup
  | @swallowed v l hfile hshelter hloc hget _ =>
    -- A device is old, and a target without two dots has led to it from the start.
    have hold : turn.tree.get? l = some .device := get?_of_shelter hshelter hget (by simp)
    have hadds := adds_shelter hshelter
    have hold' : (placeAll t (before.map Turn.doc)).2.get? l = some .device := by
      rw [hrun']
      exact hold
    have hl : t.get? l = some .device := get?_of_placeAll hold' (by simp) (by simp)
    have hleads := Tree.locate_of_old (hgrows.trans hadds.grows) (hlinks.adds_dirs hadds) hup
      (Tree.locate_target_of_file hloc hget (by simp)) hl
    have hentry := Tree.entry?_eq_some_iff.2 ⟨l, hleads, hl⟩
    simp [Tree.leads, hentry] at hfresh

/-- What became of documents whose targets led nowhere before the run. -/
structure Accounted (t u : Tree) (docs : List (Text × List UInt8)) (report : Report) : Prop where
  /-- Every document has its turn. -/
  documents : (turns t docs).map Turn.doc = docs
  /-- A document is reported as written unless it is skipped at its turn. -/
  written : report.written = ((turns t docs).filter fun turn => !turn.skips).map Turn.target
  skipped : report.skipped = ((turns t docs).filter Turn.skips).map Turn.target
  /-- The text of a written document is in the file that its target leads to. -/
  holds : ∀ turn ∈ turns t docs, turn.skips = false → turn.bytes = [] ∨
    ∃ before after, u.entry? turn.target = some (.file (before ++ turn.bytes ++ after))
  /-- A skipped document would have gone where an earlier one was written; or two dots in its target
  have led to an old file. -/
  lost : ∀ before turn after, turns t docs = before ++ turn :: after → turn.skips = true →
    (∃ earlier ∈ before, earlier.skips = false ∧
      Tree.landing t.cwd earlier.target = Tree.landing t.cwd turn.target) ∨
    (['.', '.'] ∈ Text.pieces '/' turn.target ∧
      ∃ content, t.get? (Tree.landing t.cwd turn.target) = some (.file content))
  /-- Without two dots in its target a document is skipped whenever an earlier one goes there. -/
  repeated : ∀ before turn after, turns t docs = before ++ turn :: after →
    ['.', '.'] ∉ Text.pieces '/' turn.target →
    (∃ earlier ∈ before, Tree.landing t.cwd earlier.target = Tree.landing t.cwd turn.target) →
    turn.skips = true

theorem accounted_of_fresh {report : Report} (h : t.Linkless)
    (hfresh : ∀ doc ∈ docs, t.leads doc.1 = false) (hrun : placeAll t docs = (.ok report, u)) :
    Accounted t u docs report := by
  obtain ⟨hdocs, hwritten, hskipped⟩ := placeAll_eq_ok hrun
  have hfresh' : ∀ turn ∈ turns t docs, t.leads turn.target = false := by
    intro turn hturn
    exact hfresh turn.doc (hdocs ▸ List.mem_map_of_mem hturn)
  refine ⟨hdocs, hwritten, hskipped, ?_, ?_, ?_⟩
  · intro turn hturn hskips
    obtain ⟨fate, v, hplacing, hgrows⟩ := place_of_mem_turns hrun hturn
    have hfate : fate = .written := by
      rw [hplacing.fate_eq]
      exact if_neg (by rw [show turn.tree.isFile turn.target = false from hskips]; simp)
    rw [hfate] at hplacing
    rcases hplacing.reaches with ⟨l, before, hloc, hget⟩ | ⟨hbytes, _⟩
    · obtain ⟨more, hget'⟩ := hgrows.file hget
      exact Or.inr ⟨before, more, Tree.entry?_eq_some_iff.2 ⟨l, hgrows.locate hloc, hget'⟩⟩
    · exact Or.inl hbytes
  · intro before turn after hturns hskips
    rcases landing_of_skips h hturns hskips with hearlier | ⟨content, hold⟩
    · exact Or.inl hearlier
    · refine Or.inr ⟨?_, content, hold⟩
      -- Without two dots the target would have led to the old file before.
      rw [← Path.up_mem_steps]
      by_contra hup
      have hturn : turn ∈ turns t docs := by rw [hturns]; simp
      obtain ⟨hlinks, hgrows⟩ := tree_of_mem_turns h hturn
      obtain ⟨_, hloc, _⟩ := file_of_skips h hturn hskips
      have hentry := Tree.entry?_eq_some_iff.2
        ⟨_, Tree.locate_of_old hgrows hlinks hup hloc hold, hold⟩
      have hnot := hfresh' turn hturn
      simp [Tree.leads, hentry] at hnot
  · rintro before turn after hturns hdots ⟨earlier, hearlier, hlanding⟩
    have hturn : turn ∈ turns t docs := by rw [hturns]; simp
    rw [← Path.up_mem_steps] at hdots
    exact skips_of_landing h hrun hturns hearlier hlanding (hfresh' turn hturn) hdots

theorem pairwise_of_splits {α : Type} {R : α → α → Prop} {xs : List α}
    (h : ∀ before x after, xs = before ++ x :: after → ∀ y ∈ before, R y x) : xs.Pairwise R := by
  rw [List.pairwise_iff_getElem]
  intro i j hi hj hij
  refine h (xs.take j) xs[j] (xs.drop (j + 1)) ?_ xs[i] ?_
  · rw [List.getElem_cons_drop, List.take_append_drop]
  · exact List.mem_take_iff_getElem.2 ⟨i, by omega, rfl⟩

/-- Where no target has two dots, nothing is skipped exactly when no two targets have one landing. -/
theorem Accounted.skipped_eq_nil_iff {report : Report} (h : Accounted t u docs report)
    (hdots : ∀ doc ∈ docs, ['.', '.'] ∉ Text.pieces '/' doc.1) :
    report.skipped = [] ↔
      docs.Pairwise fun a b => Tree.landing t.cwd a.1 ≠ Tree.landing t.cwd b.1 := by
  have hdots' : ∀ turn ∈ turns t docs, ['.', '.'] ∉ Text.pieces '/' turn.target := by
    intro turn hturn
    exact hdots turn.doc (h.documents ▸ List.mem_map_of_mem hturn)
  rw [h.skipped, List.map_eq_nil_iff, List.filter_eq_nil_iff]
  conv_rhs => rw [← h.documents, List.pairwise_map]
  constructor
  · intro hnone
    refine pairwise_of_splits fun before turn after hturns earlier hearlier hlanding => ?_
    have hturn : turn ∈ turns t docs := by rw [hturns]; simp
    exact hnone turn hturn
      (h.repeated before turn after hturns (hdots' turn hturn) ⟨earlier, hearlier, hlanding⟩)
  · intro hpairwise turn hturn hskips
    obtain ⟨before, after, hturns⟩ := List.append_of_mem hturn
    rcases h.lost before turn after hturns hskips with ⟨earlier, hearlier, _, hlanding⟩ | ⟨htwo, _⟩
    · rw [hturns, List.pairwise_append] at hpairwise
      exact hpairwise.2.2 earlier hearlier turn List.mem_cons_self hlanding
    · exact hdots' turn hturn htwo

end Docblocks.Writing

namespace Docblocks.Store

/-- What becomes of a store that is written to a tree without links in which no target leads anywhere:
every document is accounted for.  A document is lost only to an earlier one that goes to the same
location, or, when its target has a piece of two dots, to an old file that such a target reaches once
directories have been made.  So where no target has such a piece, nothing is skipped exactly when no two
targets land at one location. -/
theorem write_fresh (s : Store) (root extension : Text) (t u : Tree) (report : Report)
    (hlinks : t.Linkless)
    (hfresh : ∀ path ∈ s.paths, t.leads (Document.target root extension path) = false)
    (hwrite : s.write root extension t = (.ok report, u)) :
    Writing.Accounted t u (s.outputs root extension) report ∧
      ((∀ path ∈ s.paths, ['.', '.'] ∉ Text.pieces '/' (Document.target root extension path)) →
        (report.skipped = [] ↔ s.paths.Pairwise fun p q =>
          Tree.landing t.cwd (Document.target root extension p) ≠
            Tree.landing t.cwd (Document.target root extension q))) := by
  have hfresh' : ∀ doc ∈ s.outputs root extension, t.leads doc.1 = false := by
    intro doc hdoc
    obtain ⟨path, hpath, rfl⟩ := List.mem_map.1 hdoc
    exact hfresh path hpath
  have haccounted := Writing.accounted_of_fresh hlinks hfresh' hwrite
  refine ⟨haccounted, fun hdots => ?_⟩
  rw [haccounted.skipped_eq_nil_iff, outputs, List.pairwise_map]
  intro doc hdoc
  obtain ⟨path, hpath, rfl⟩ := List.mem_map.1 hdoc
  exact hdots path hpath

/-- Three documents, of which `/a` and `a` have the same target. -/
def sameTarget : Store :=
  appendAll {} [⟨"a".toList, "1".toList, ⟨["lost\n".toList]⟩⟩,
    ⟨"/b/c".toList, "1".toList, ⟨["kept\n".toList]⟩⟩, ⟨"/a".toList, "1".toList, ⟨["first\n".toList]⟩⟩]

theorem write_fresh_sameTarget :
    ∃ report u, sameTarget.write "docs".toList ".txt".toList Tree.root = (.ok report, u) ∧
      report.written = ["docs/a.txt".toList, "docs/b/c.txt".toList] ∧
      report.skipped = ["docs/a.txt".toList] ∧
      u.entry? "docs/a.txt".toList = some (.file (Text.Utf8.encode "first\n".toList)) ∧
      Writing.Accounted Tree.root u (sameTarget.outputs "docs".toList ".txt".toList) report := by
  have hok : ((sameTarget.write "docs".toList ".txt".toList Tree.root).1.toOption.map fun r =>
      (r.written, r.skipped)) = some (["docs/a.txt".toList, "docs/b/c.txt".toList],
        ["docs/a.txt".toList]) := by decide +kernel
  have hentry : Tree.entry? (sameTarget.write "docs".toList ".txt".toList Tree.root).2
      "docs/a.txt".toList = some (.file (Text.Utf8.encode "first\n".toList)) := by decide +kernel
  have hfresh : ∀ path ∈ sameTarget.paths,
      Tree.root.leads (Document.target "docs".toList ".txt".toList path) = false := by decide +kernel
  have hlinks : Tree.root.Linkless := fun p hp => by cases hp
  rcases hwrite : sameTarget.write "docs".toList ".txt".toList Tree.root with ⟨r, u⟩
  rw [hwrite] at hok hentry
  cases r with
  | error refusal => cases hok
  | ok report =>
    simp only [Except.toOption, Option.map_some, Option.some.injEq, Prod.mk.injEq] at hok
    exact ⟨report, u, rfl, hok.1, hok.2, hentry,
      (write_fresh _ _ _ Tree.root u report hlinks hfresh hwrite).1⟩

/-- The document `a` is lost on a fresh output: `/a` has the same target and is written before it. -/
theorem write_loses_document :
    ¬ ∀ (fs : List Fragment) (root extension : Text) (t u : Tree) (report : Report), t.Linkless →
      (∀ path ∈ (appendAll {} fs).paths,
        t.leads (Document.target root extension path) = false) →
      (appendAll {} fs).write root extension t = (.ok report, u) → report.skipped = [] := by
  intro h
  let fs : List Fragment := [⟨"/a".toList, "1".toList, ⟨["one\n".toList]⟩⟩,
    ⟨"a".toList, "1".toList, ⟨["two\n".toList]⟩⟩]
  have hok : (((appendAll {} fs).write "docs".toList ".txt".toList Tree.root).1.toOption.map
      Report.skipped) = some ["docs/a.txt".toList] := by decide +kernel
  have hfresh : ∀ path ∈ (appendAll {} fs).paths,
      Tree.root.leads (Document.target "docs".toList ".txt".toList path) = false := by decide +kernel
  rcases hwrite : (appendAll {} fs).write "docs".toList ".txt".toList Tree.root with ⟨r, u⟩
  rw [hwrite] at hok
  cases r with
  | error refusal => cases hok
  | ok report =>
    have hnil := h fs _ _ Tree.root u report (fun p hp => by cases hp) hfresh hwrite
    rw [Except.toOption, Option.map_some, hnil] at hok
    cases hok

end Docblocks.Store
