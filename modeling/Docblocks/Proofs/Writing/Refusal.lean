/-
# Docblocks.Proofs.Writing.Refusal — what a run that is refused leaves behind.

A run is refused at the first document that is (`placeAll_eq_error_iff`): the documents before it are a
run of their own that ends with a report, and those behind it have no turn.  The refused document adds
directories and nothing else, and the refusal names its target or the path above the target
(`Placing.of_error`).  So a refused run leaves the tree of the documents before the refused one, with
directories added.
-/
import Docblocks.Proofs.Writing.Growth

namespace Docblocks

namespace Writing

variable {t u v : Tree} {target : Text} {bytes : List UInt8} {docs : List (Text × List UInt8)}
  {refusal : Refusal}

/-! ## The refused document -/

theorem parent?_of_shelter (h : shelter t target = (.error refusal, u)) :
    Path.parent? target = some refusal.path := by
  rcases shelter_cases t target with hsame | ⟨parent, r, w, hparent, _, _, _, hmade⟩
  · rw [hsame] at h
    cases h
  · rw [hmade] at h
    cases r with
    | ok => cases h
    | error cause =>
      cases h
      exact hparent

/-- A refusal names the target or the path above it, and has added directories alone. -/
theorem Placing.of_error (h : Placing t target bytes (.error refusal) u) :
    (refusal.path = target ∨ Path.parent? target = some refusal.path) ∧
      Tree.Adds t u (Tree.dirs fun _ => True) := by
  cases h with
  | unsheltered _ hshelter => exact ⟨Or.inr (parent?_of_shelter hshelter), adds_shelter hshelter⟩
  | refused _ hshelter => exact ⟨Or.inl rfl, adds_shelter hshelter⟩

/-! ## The refused run -/

/-- A refusal among the later documents is the refusal of the whole run. -/
theorem placeAll_append_of_error {before rest : List (Text × List UInt8)} {report : Report}
    (hbefore : placeAll t before = (.ok report, v)) (hrest : placeAll v rest = (.error refusal, u)) :
    placeAll t (before ++ rest) = (.error refusal, u) := by
  induction before generalizing t report with
  | nil =>
    rw [placeAll] at hbefore
    cases hbefore
    exact hrest
  | cons doc before ih =>
    obtain ⟨target, bytes⟩ := doc
    obtain ⟨fate, w, report', hplace, hrun, _⟩ := placeAll_cons_eq_ok hbefore
    show placeAll t ((target, bytes) :: (before ++ rest)) = (.error refusal, u)
    rw [placeAll, hplace]
    simp only [ih hrun]

/-- A run is refused exactly when the documents before some document can all be written or skipped and
that document is then refused.  What is behind it plays no part. -/
theorem placeAll_eq_error_iff :
    placeAll t docs = (.error refusal, u) ↔
      ∃ before doc after report v, docs = before ++ doc :: after ∧
        placeAll t before = (.ok report, v) ∧ place v doc.1 doc.2 = (.error refusal, u) := by
  constructor
  · intro h
    induction docs generalizing t with
    | nil =>
      rw [placeAll] at h
      cases h
    | cons doc docs ih =>
      obtain ⟨target, bytes⟩ := doc
      rw [placeAll] at h
      rcases hplace : place t target bytes with ⟨r, w⟩
      rw [hplace] at h
      cases r with
      | error refusal' =>
        cases h
        exact ⟨[], (target, bytes), docs, {}, t, rfl, rfl, hplace⟩
      | ok fate =>
        rcases hrun : placeAll w docs with ⟨r', w'⟩
        simp only [hrun] at h
        cases r' with
        | ok report => cases h
        | error refusal' =>
          cases h
          obtain ⟨before, doc, after, report, v, rfl, hbefore, hdoc⟩ := ih hrun
          refine ⟨(target, bytes) :: before, doc, after, report.cons fate target, v, rfl, ?_, hdoc⟩
          simp only [placeAll, hplace, hbefore]
  · rintro ⟨before, doc, after, report, v, rfl, hbefore, hdoc⟩
    apply placeAll_append_of_error hbefore
    rw [placeAll, hdoc]

/-! ## The documents before it -/

/-- The document of a turn is complete in a tree: it was skipped at its turn, or its text stands in one
piece in the file that its target leads to, or it has no text and its target leads to the device. -/
def Turn.Complete (turn : Turn) (u : Tree) : Prop :=
  turn.skips = true ∨
    (∃ before after, u.entry? turn.target = some (.file (before ++ turn.bytes ++ after))) ∨
    turn.bytes = [] ∧ u.entry? turn.target = some .device

/-- All documents have had their turn and are complete in a tree. -/
structure Completed (t u : Tree) (docs : List (Text × List UInt8)) : Prop where
  documents : (turns t docs).map Turn.doc = docs
  complete : ∀ turn ∈ turns t docs, turn.Complete u

theorem complete_of_mem_turns {report : Report} (h : placeAll t docs = (.ok report, v))
    (hgrows : Tree.Grows v u) {turn : Turn} (hturn : turn ∈ turns t docs) : turn.Complete u := by
  obtain ⟨fate, w, hplacing, hgrows'⟩ := place_of_mem_turns h hturn
  have hafter : Tree.Grows w u := hgrows'.trans hgrows
  cases fate with
  | skipped =>
    cases hplacing with
    | skipped hfile => exact Or.inl hfile
  | written =>
    right
    rcases hplacing.reaches with ⟨l, before, hloc, hget⟩ | ⟨hbytes, _, l, hloc, hget⟩
    · obtain ⟨after, hget'⟩ := hafter.file hget
      exact Or.inl ⟨before, after, Tree.entry?_eq_some_iff.2 ⟨l, hafter.locate hloc, hget'⟩⟩
    · obtain ⟨e, hget', rfl⟩ := hafter.entries l _ hget
      have hleads := Tree.locate_target_of_file hloc hget (by simp)
      exact Or.inr ⟨hbytes, Tree.entry?_eq_some_iff.2 ⟨l, hafter.locate hleads, hget'⟩⟩

theorem completed_of_placeAll {report : Report} (h : placeAll t docs = (.ok report, v))
    (hgrows : Tree.Grows v u) : Completed t u docs :=
  ⟨(placeAll_eq_ok h).1, fun _ hturn => complete_of_mem_turns h hgrows hturn⟩

end Writing

/-! ## Stores cut short -/

theorem Keyed.get?_take {α : Type} {m : Keyed α} {k : Nat} {key : Text}
    (h : key ∈ keys (m.take k)) : get? key (m.take k) = get? key m := by
  induction m generalizing k with
  | nil => rw [List.take_nil]
  | cons p m ih =>
    cases k with
    | zero => simp [keys] at h
    | succ k =>
      obtain ⟨key', a⟩ := p
      rw [List.take_succ_cons] at h ⊢
      rw [get?, get?]
      by_cases hkey : key' = key
      · rw [if_pos hkey, if_pos hkey]
      · rw [if_neg hkey, if_neg hkey]
        apply ih
        rcases List.mem_cons.1 h with heq | hmem
        · exact absurd heq.symm hkey
        · exact hmem

namespace Store

variable {s : Store} {root extension : Text}

/-- The store of the first `k` documents alone. -/
def upTo (s : Store) (k : Nat) : Store :=
  ⟨s.documents.take k⟩

theorem paths_upTo (s : Store) (k : Nat) : (s.upTo k).paths = s.paths.take k :=
  List.map_take

theorem text_upTo {k : Nat} {path : Text} (h : path ∈ (s.upTo k).paths) :
    (s.upTo k).text path = s.text path := by
  have hget : Keyed.get? path (s.documents.take k) = Keyed.get? path s.documents :=
    Keyed.get?_take h
  unfold text chunks upTo
  rw [hget]

theorem outputs_upTo (s : Store) (root extension : Text) (k : Nat) :
    (s.upTo k).outputs root extension = (s.outputs root extension).take k := by
  have htexts : (s.upTo k).outputs root extension = (s.upTo k).paths.map fun path =>
      (Document.target root extension path, Text.Utf8.encode (s.text path)) := by
    apply List.map_congr_left
    intro path hpath
    rw [text_upTo hpath]
  rw [htexts, paths_upTo, outputs, List.map_take]

/-- What writing a store has done when it was refused at the document of `path`, after the first `k`
documents had left the tree `v`. -/
structure RefusedAt (s : Store) (root extension : Text) (t u : Tree) (refusal : Refusal) (k : Nat)
    (path : Text) (v : Tree) : Prop where
  /-- The refused document comes right behind the first `k`. -/
  refused : s.paths[k]? = some path
  /-- The refusal names its target or the path above the target. -/
  named : refusal.path = Document.target root extension path ∨
    Path.parent? (Document.target root extension path) = some refusal.path
  /-- The documents before it, written alone, are not refused and leave the tree `v`. -/
  before : ∃ report, (s.upTo k).write root extension t = (.ok report, v)
  /-- They are complete in the tree that is left. -/
  completed : Writing.Completed t u ((s.upTo k).outputs root extension)
  /-- That tree is `v` with new directories. -/
  added : Tree.Adds v u (Tree.dirs fun _ => True)
  /-- No file is new, and none has changed. -/
  files : ∀ l content, u.get? l = some (.file content) ↔ v.get? l = some (.file content)
  /-- Whatever documents come behind, the refusal and the tree are the same. -/
  later : ∀ s' : Store, s'.upTo (k + 1) = s.upTo (k + 1) →
    s'.write root extension t = (.error refusal, u)

theorem outputs_split {docs after : List (Text × List UInt8)} {doc : Text × List UInt8}
    (h : s.outputs root extension = docs ++ doc :: after) :
    (s.upTo docs.length).outputs root extension = docs ∧
      (s.upTo (docs.length + 1)).outputs root extension = docs ++ [doc] ∧
      ∃ path, s.paths[docs.length]? = some path ∧ doc.1 = Document.target root extension path := by
  refine ⟨?_, ?_, ?_⟩
  · rw [outputs_upTo, h, List.take_left]
  · rw [outputs_upTo, h, List.take_length_add_append, List.take_succ_cons, List.take_zero]
  · have hdoc : (s.outputs root extension)[docs.length]? = some doc := by
      rw [h, List.getElem?_append_right (Nat.le_refl _), Nat.sub_self]
      rfl
    rw [outputs, List.getElem?_map, Option.map_eq_some_iff] at hdoc
    obtain ⟨path, hpath, rfl⟩ := hdoc
    exact ⟨path, hpath, rfl⟩

/-- What a refused run leaves behind.  It was refused at one document, and the refusal is about that
document's target or the path above it.  The tree is the one that the documents before it leave, with
directories added; so these documents are complete, no file was made or changed for the refused one, and
the documents behind it are of no effect. -/
theorem write_refused (s : Store) (root extension : Text) (t u : Tree) (refusal : Refusal)
    (hwrite : s.write root extension t = (.error refusal, u)) :
    ∃ k path v, RefusedAt s root extension t u refusal k path v := by
  obtain ⟨before, doc, after, report, v, hdocs, hbefore, hdoc⟩ :=
    Writing.placeAll_eq_error_iff.1 hwrite
  obtain ⟨houtputs, houtputs', path, hpath, htarget⟩ := outputs_split hdocs
  obtain ⟨hnamed, hadds⟩ := (Writing.placing_of_place hdoc).of_error
  rw [htarget] at hnamed
  refine ⟨before.length, path, v, hpath, hnamed, ⟨report, ?_⟩, ?_, hadds, ?_, ?_⟩
  · rw [write, houtputs]
    exact hbefore
  · rw [houtputs]
    exact Writing.completed_of_placeAll hbefore hadds.grows
  · intro l content
    constructor
    · intro hu
      rcases hadds.only l _ hu with hv | hdir
      · exact hv
      · cases hdir.1
    · exact hadds.kept l _
  · intro s' hs'
    -- The first documents of the other store are those of this one, the refused one included.
    have hfirst : (s'.outputs root extension).take (before.length + 1) = before ++ [doc] := by
      rw [← outputs_upTo, hs', houtputs']
    apply Writing.placeAll_eq_error_iff.2
    refine ⟨before, doc, (s'.outputs root extension).drop (before.length + 1), report, v, ?_, hbefore,
      hdoc⟩
    rw [List.append_cons, ← hfirst, List.take_append_drop]

/-- Output in which a directory stands where a document should go. -/
def blockedDocs : Tree :=
  Tree.root
    |>.insert [] "docs".toList .dir
    |>.insert ["docs".toList] "b.txt".toList .dir

/-- Three documents, of which the second goes to `docs/b.txt` over a directory not there yet. -/
def detouredDocuments : Store :=
  appendAll {} [⟨"/z".toList, "1".toList, ⟨["z\n".toList]⟩⟩,
    ⟨"/n/../b".toList, "1".toList, ⟨["b\n".toList]⟩⟩, ⟨"/a".toList, "1".toList, ⟨["a\n".toList]⟩⟩]

/-- The first document is written, the directory `docs/n` is made for the second, which is then refused,
and the third is not written. -/
theorem write_refused_blockedDocs :
    ∃ u, detouredDocuments.write "docs".toList ".txt".toList blockedDocs =
        (.error ⟨"docs/n/../b.txt".toList, .isDirectory⟩, u) ∧
      u.entry? "docs/a.txt".toList = some (.file (Text.Utf8.encode "a\n".toList)) ∧
      u.entry? "docs/n".toList = some .dir ∧ u.entry? "docs/z.txt".toList = none ∧
      ∃ k path v, RefusedAt detouredDocuments "docs".toList ".txt".toList blockedDocs u
        ⟨"docs/n/../b.txt".toList, .isDirectory⟩ k path v := by
  have hrefused : detouredDocuments.write "docs".toList ".txt".toList blockedDocs =
      (.error ⟨"docs/n/../b.txt".toList, .isDirectory⟩,
        (detouredDocuments.write "docs".toList ".txt".toList blockedDocs).2) := by
    refine Prod.ext ?_ rfl
    decide +kernel
  refine ⟨_, hrefused, by decide +kernel, by decide +kernel, by decide +kernel, ?_⟩
  exact write_refused detouredDocuments _ _ blockedDocs _ _ hrefused

end Store

end Docblocks
