/-
# Docblocks.Proofs.Writing.Plain — writing documents to a tree of directories and files.

In a plain tree, and for targets without two dots, a document is skipped if its target is a file, and
otherwise becomes a new file at the spot of its target, with new directories above it and nothing else
(`Placing.plain`).  As long as no two targets have the same spot, a document does not change whether
the target of another one is a file, so the tree before the first document decides what becomes of each
(`placeAll_plain`).
-/
import Docblocks.Proofs.Tree.Plain
import Docblocks.Proofs.Writing.OldFiles

namespace Docblocks.Writing

variable {t u : Tree} {target : Text} {bytes : List UInt8}

/-! ## One document -/

/-- What a document adds: a file at the spot of its target, and directories above that. -/
def New (cwd : Location) (target : Text) (bytes : List UInt8) (l : Location) (e : Entry) : Prop :=
  (l = Tree.spot cwd target ∧ e = .file bytes) ∨ (e = .dir ∧ l <:+ (Tree.spot cwd target).tail)

theorem New.isPlain {cwd l : Location} {e : Entry} (h : New cwd target bytes l e) :
    e.isPlain = true := by
  rcases h with ⟨_, rfl⟩ | ⟨rfl, _⟩ <;> rfl

/-- The document was written: it is all that was added, and its target leads to it. -/
structure Wrote (t u : Tree) (target : Text) (bytes : List UInt8) : Prop where
  adds : Tree.Adds t u (New t.cwd target bytes)
  leads : u.locate .target target = .ok (.found (Tree.spot t.cwd target))
  holds : u.get? (Tree.spot t.cwd target) = some (.file bytes)

/-- In a plain tree the directories made for a target lie above its spot. -/
theorem adds_shelter_plain {r : Except Refusal Unit} (h : shelter t target = (r, u))
    (hplain : t.Plain) (hup : .up ∉ Path.steps target) :
    Tree.Adds t u (Tree.dirs fun l => l <:+ (Tree.spot t.cwd target).tail) := by
  rcases shelter_cases t target with hsame | ⟨parent, r', u', hparent, hne, _, hmaking, hmade⟩
  · rw [hsame] at h
    cases h
    exact Tree.Adds.refl t _
  · rw [hmade] at h
    cases h
    obtain ⟨n, hn⟩ := Tree.spot_of_parent? hparent hne hup t.cwd
    rw [hn, List.tail_cons]
    exact hmaking.adds_above hplain (Tree.up_not_mem_parent hparent hne hup)

theorem wrote_of_vacant {d : Location} {n : Text} (hplain : t.Plain)
    (hup : .up ∉ Path.steps target) (hshelter : shelter t target = (.ok (), u))
    (hloc : u.locate .file target = .ok (.vacant d n)) :
    Wrote t (u.insert d n (.file bytes)) target bytes := by
  have hadds := adds_shelter_plain hshelter hplain hup
  have hplain' : u.Plain := hplain.adds hadds fun l e hnew => by rw [hnew.1]; rfl
  have hspot : n :: d = Tree.spot t.cwd target := by
    have := Tree.location_of_locate hloc hplain' hup
    rw [hadds.cwd] at this
    exact this
  obtain ⟨hleads, hget⟩ := Tree.locate_insert_file hloc bytes
  refine ⟨(hadds.mono ?_).trans ((Tree.adds_insert u d n (.file bytes)).mono ?_), ?_, ?_⟩
  · exact fun l e hnew => Or.inr hnew
  · rintro l e ⟨rfl, rfl⟩
    exact Or.inl ⟨hspot, rfl⟩
  · rw [← hspot]
    exact hleads
  · rw [← hspot]
    exact hget

/-- A document is skipped and nothing changes, or it is written; a file at its target decides. -/
theorem Placing.plain {fate : Fate} (h : Placing t target bytes (.ok fate) u) (hplain : t.Plain)
    (hup : .up ∉ Path.steps target) :
    (fate = .skipped ∧ t.isFile target = true ∧ u = t) ∨
      (fate = .written ∧ t.isFile target = false ∧ Wrote t u target bytes) := by
  cases h with
  | skipped hfile => exact Or.inl ⟨rfl, hfile, rfl⟩
  | made hfile hshelter hloc => exact Or.inr ⟨rfl, hfile, wrote_of_vacant hplain hup hshelter hloc⟩
  | @added v l content hfile hshelter hloc hget =>
    -- A file that the target reaches only now would need two dots in the target.
    have ht := get?_of_shelter hshelter hget (by simp)
    have hopened : (Turn.mk t target bytes).opened? = some l :=
      (opened?_eq_some_iff hfile hshelter).2 hloc
    exact absurd (Path.up_mem_steps.2 (dots_of_opened? hopened ht).1) hup
  | swallowed hfile hshelter hloc hget =>
    have := hplain.isPlain (get?_of_shelter hshelter hget (by simp))
    cases this

/-! ## All documents -/

/-- The entries that documents add: those of the documents whose target is no file. -/
def NewOf (t : Tree) (docs : List (Text × List UInt8)) (l : Location) (e : Entry) : Prop :=
  ∃ doc ∈ docs, t.isFile doc.1 = false ∧ New t.cwd doc.1 doc.2 l e

/-- What writing documents to a plain tree comes to. -/
structure WroteAll (t u : Tree) (docs : List (Text × List UInt8)) (report : Report) : Prop where
  written : report.written = (docs.filter fun doc => !t.isFile doc.1).map Prod.fst
  skipped : report.skipped = (docs.filter fun doc => t.isFile doc.1).map Prod.fst
  adds : Tree.Adds t u (NewOf t docs)
  leads : ∀ doc ∈ docs, t.isFile doc.1 = false →
    u.locate .target doc.1 = .ok (.found (Tree.spot t.cwd doc.1))
  holds : ∀ doc ∈ docs, t.isFile doc.1 = false →
    u.get? (Tree.spot t.cwd doc.1) = some (.file doc.2)

/-- A written document leaves it as it was whether a path with another spot leads to a file. -/
theorem Wrote.isFile_eq (h : Wrote t u target bytes) (hplain : u.Plain) {path : Text}
    (hup : .up ∉ Path.steps path) (hne : Tree.spot t.cwd path ≠ Tree.spot t.cwd target) :
    u.isFile path = t.isFile path := by
  refine Tree.isFile_of_adds h.adds hplain hup fun content hnew => ?_
  rcases hnew with ⟨heq, _⟩ | ⟨heq, _⟩
  · exact hne heq
  · cases heq

theorem WroteAll.skip {docs : List (Text × List UInt8)} {report : Report}
    (h : WroteAll t u docs report) (hfile : t.isFile target = true) :
    WroteAll t u ((target, bytes) :: docs) (report.cons .skipped target) where
  written := by
    rw [List.filter_cons_of_neg (by simp [hfile])]
    exact h.written
  skipped := by
    rw [List.filter_cons_of_pos (by simpa using hfile), List.map_cons, ← h.skipped]
    rfl
  adds := h.adds.mono fun l e ⟨doc, hdoc, hnew⟩ => ⟨doc, List.mem_cons_of_mem _ hdoc, hnew⟩
  leads := by
    intro doc hdoc hnot
    rcases List.mem_cons.1 hdoc with rfl | hdoc
    · rw [hfile] at hnot
      cases hnot
    · exact h.leads doc hdoc hnot
  holds := by
    intro doc hdoc hnot
    rcases List.mem_cons.1 hdoc with rfl | hdoc
    · rw [hfile] at hnot
      cases hnot
    · exact h.holds doc hdoc hnot

theorem WroteAll.write {docs : List (Text × List UInt8)} {report : Report} {v : Tree}
    (h : WroteAll u v docs report) (hwrote : Wrote t u target bytes)
    (hnot : t.isFile target = false) (hsame : ∀ doc ∈ docs, u.isFile doc.1 = t.isFile doc.1) :
    WroteAll t v ((target, bytes) :: docs) (report.cons .written target) := by
  have hcwd := hwrote.adds.cwd
  obtain ⟨hwritten, hskipped, hadds, hleads, hholds⟩ := h
  rw [hcwd] at hleads hholds
  refine ⟨?_, ?_, ?_, ?_, ?_⟩
  · rw [List.filter_cons_of_pos (by simp [hnot]), List.map_cons,
      List.filter_congr fun doc hdoc => by rw [← hsame doc hdoc], ← hwritten]
    rfl
  · rw [List.filter_cons_of_neg (by simp [hnot]),
      List.filter_congr fun doc hdoc => by rw [← hsame doc hdoc], ← hskipped]
    rfl
  · refine (hwrote.adds.mono ?_).trans (hadds.mono ?_)
    · exact fun l e hnew => ⟨_, List.mem_cons_self, hnot, hnew⟩
    · rintro l e ⟨doc, hdoc, hfile, hnew⟩
      rw [hsame doc hdoc] at hfile
      rw [hcwd] at hnew
      exact ⟨doc, List.mem_cons_of_mem _ hdoc, hfile, hnew⟩
  · intro doc hdoc hfile
    rcases List.mem_cons.1 hdoc with rfl | hdoc
    · exact hadds.grows.locate hwrote.leads
    · exact hleads doc hdoc (by rw [hsame doc hdoc]; exact hfile)
  · intro doc hdoc hfile
    rcases List.mem_cons.1 hdoc with rfl | hdoc
    · exact hadds.kept _ _ hwrote.holds
    · exact hholds doc hdoc (by rw [hsame doc hdoc]; exact hfile)

/-- The tree before the first document decides what becomes of each. -/
theorem placeAll_plain {docs : List (Text × List UInt8)} {report : Report}
    (h : placeAll t docs = (.ok report, u)) (hplain : t.Plain)
    (hup : ∀ doc ∈ docs, .up ∉ Path.steps doc.1)
    (hspots : docs.Pairwise fun a b => Tree.spot t.cwd a.1 ≠ Tree.spot t.cwd b.1) :
    WroteAll t u docs report := by
  induction docs generalizing t report with
  | nil =>
    rw [placeAll] at h
    cases h
    exact ⟨rfl, rfl, Tree.Adds.refl _ _, by simp, by simp⟩
  | cons doc docs ih =>
    obtain ⟨target, bytes⟩ := doc
    obtain ⟨fate, v, report', hplace, hrest, rfl⟩ := placeAll_cons_eq_ok h
    obtain ⟨hfirst, hspots'⟩ := List.pairwise_cons.1 hspots
    have hup' : ∀ doc ∈ docs, .up ∉ Path.steps doc.1 :=
      fun doc hdoc => hup doc (List.mem_cons_of_mem _ hdoc)
    rcases (placing_of_place hplace).plain hplain (hup _ List.mem_cons_self) with
      ⟨rfl, hfile, rfl⟩ | ⟨rfl, hnot, hwrote⟩
    · exact (ih hrest hplain hup' hspots').skip hfile
    · have hplain' : v.Plain := hplain.adds hwrote.adds fun l e hnew => hnew.isPlain
      rw [← hwrote.adds.cwd] at hspots'
      refine (ih hrest hplain' hup' hspots').write hwrote hnot fun doc hdoc => ?_
      exact hwrote.isFile_eq hplain' (hup' doc hdoc) (hfirst doc hdoc).symm

end Docblocks.Writing
