/-
# Docblocks.Proofs.Writing.OldFiles — what writing documents does to the files that are there.

A target that leads to a file is skipped, so writing should leave every file alone.  It does not always:
the directories that are made above a target can bring a file into the target's reach that was not
there when the target was looked at, and the text is then added to that file.  `turns` is a run of the
writer, document by document; `Turn.opened?` is the entry that a document is added to; and
`get?_placeAll` is the exact content of an old file after a run, refused or not.  The main result says
when all files stay as they are, and that only a target with a piece of two dots can do harm.
-/
import Docblocks.Proofs.Writing.Steps

namespace Docblocks.Writing

/-! ## Runs -/

/-- One document at its turn: the tree as the documents before it have left it, the target, and the
bytes to be written. -/
structure Turn where
  tree : Tree
  target : Text
  bytes : List UInt8

/-- The turns of documents written to a tree, up to the first one that is refused. -/
def turns : Tree → List (Text × List UInt8) → List Turn
  | _, [] => []
  | t, (target, bytes) :: rest =>
    ⟨t, target, bytes⟩ ::
      match place t target bytes with
      | (.error _, _) => []
      | (.ok _, t') => turns t' rest

/-- The entry that the document is added to, when there is one after the directory above the target has
been made.  A target that leads to a file at its turn is not opened. -/
def Turn.opened? (turn : Turn) : Option Location :=
  if turn.tree.isFile turn.target then none
  else
    match shelter turn.tree turn.target with
    | (.error _, _) => none
    | (.ok (), t) =>
      match t.locate .file turn.target with
      | .ok (.found l) => some l
      | _ => none

/-- What the document adds to the file at a location. -/
def Turn.added (turn : Turn) (l : Location) : List UInt8 :=
  if turn.opened? = some l then turn.bytes else []

theorem opened?_of_isFile {t : Tree} {target : Text} {bytes : List UInt8}
    (h : t.isFile target = true) : (Turn.mk t target bytes).opened? = none :=
  if_pos h

theorem opened?_of_error {t u : Tree} {target : Text} {bytes : List UInt8} {refusal : Refusal}
    (h : shelter t target = (.error refusal, u)) : (Turn.mk t target bytes).opened? = none := by
  unfold Turn.opened?
  simp only [h, ite_self]

theorem opened?_eq_some_iff {t u : Tree} {target : Text} {bytes : List UInt8} {l : Location}
    (hfile : t.isFile target = false) (hshelter : shelter t target = (.ok (), u)) :
    (Turn.mk t target bytes).opened? = some l ↔ u.locate .file target = .ok (.found l) := by
  unfold Turn.opened?
  simp only [hfile, Bool.false_eq_true, if_false, hshelter]
  cases u.locate .file target with
  | error cause => simp
  | ok p => cases p <;> simp

/-! ## One document -/

variable {t : Tree} {l : Location} {content : List UInt8}

theorem added_of_opened?_ne {turn : Turn} (h : turn.opened? ≠ some l) : turn.added l = [] :=
  if_neg h

/-- Nothing is added to a file that is not opened. -/
theorem get?_of_opened?_ne {u : Tree} {turn : Turn} (h : turn.opened? ≠ some l)
    (hl : u.get? l = some (.file content)) :
    u.get? l = some (.file (content ++ turn.added l)) := by
  rw [added_of_opened?_ne h, List.append_nil]
  exact hl

/-- A document leaves a file that it is not added to, and puts its bytes at the end of one that it is
added to. -/
theorem get?_place (hl : t.get? l = some (.file content)) (target : Text) (bytes : List UInt8) :
    (place t target bytes).2.get? l =
      some (.file (content ++ (Turn.mk t target bytes).added l)) := by
  have hplacing := placing_place t target bytes
  revert hplacing
  generalize (place t target bytes).1 = r, (place t target bytes).2 = v
  intro hplacing
  cases hplacing with
  | skipped hfile => exact get?_of_opened?_ne (by rw [opened?_of_isFile hfile]; simp) hl
  | unsheltered _ hshelter =>
    exact get?_of_opened?_ne (by rw [opened?_of_error hshelter]; simp)
      ((adds_shelter hshelter).kept l _ hl)
  | @refused cause u hfile hshelter happend =>
    have hlu := (adds_shelter hshelter).kept l _ hl
    have hne : (Turn.mk t target bytes).opened? ≠ some l := by
      rw [Ne, opened?_eq_some_iff hfile hshelter]
      -- Adding to a file is never refused.
      intro hloc
      simp [Tree.append, hloc, hlu] at happend
    exact get?_of_opened?_ne hne hlu
  | @made u d n hfile hshelter hloc =>
    have hlu := (adds_shelter hshelter).kept l _ hl
    have hne : (Turn.mk t target bytes).opened? ≠ some l := by
      rw [Ne, opened?_eq_some_iff hfile hshelter, hloc]
      simp
    exact get?_of_opened?_ne hne ((Tree.adds_insert u d n (.file bytes)).kept l _ hlu)
  | @added u k content' hfile hshelter hloc hget =>
    have hlu := (adds_shelter hshelter).kept l _ hl
    rw [Tree.get?_setContent, Turn.added]
    simp only [opened?_eq_some_iff hfile hshelter, hloc, Except.ok.injEq, Tree.Place.found.injEq]
    by_cases hlk : l = k
    · subst hlk
      rw [hlu] at hget
      cases hget
      simp [hlu, Tree.refill]
    · rw [if_neg hlk, if_neg (Ne.symm hlk), List.append_nil]
      exact hlu
  | @swallowed u k hfile hshelter hloc hget _ =>
    have hlu := (adds_shelter hshelter).kept l _ hl
    have hne : (Turn.mk t target bytes).opened? ≠ some l := by
      rw [Ne, opened?_eq_some_iff hfile hshelter, hloc]
      intro hkl
      cases hkl
      rw [hlu] at hget
      cases hget
    exact get?_of_opened?_ne hne hlu

/-! ## All documents -/

/-- The exact content of an old file after a run, whether the run ends with a report or a refusal: the
texts of the documents that were added to it stand behind its own. -/
theorem get?_placeAll (hl : t.get? l = some (.file content)) (docs : List (Text × List UInt8)) :
    (placeAll t docs).2.get? l =
      some (.file (content ++ (turns t docs).flatMap fun turn => turn.added l)) := by
  induction docs generalizing t content with
  | nil => simpa [placeAll, turns] using hl
  | cons doc docs ih =>
    obtain ⟨target, bytes⟩ := doc
    have hstep := get?_place hl target bytes
    rw [turns, snd_placeAll_cons, List.flatMap_cons]
    rcases hplace : place t target bytes with ⟨r, u⟩
    rw [hplace] at hstep
    cases r with
    | error refusal => simpa using hstep
    | ok fate =>
      rw [← List.append_assoc]
      exact ih hstep

/-- Every turn is that of one of the documents, and starts from a tree in which what was there is still
there. -/
theorem of_mem_turns {docs : List (Text × List UInt8)} {turn : Turn} (h : turn ∈ turns t docs) :
    Tree.Grows t turn.tree ∧ (turn.target, turn.bytes) ∈ docs := by
  induction docs generalizing t with
  | nil => cases h
  | cons doc docs ih =>
    obtain ⟨target, bytes⟩ := doc
    rw [turns] at h
    rcases List.mem_cons.1 h with rfl | h
    · exact ⟨Tree.Grows.refl t, List.mem_cons_self⟩
    · rcases hplace : place t target bytes with ⟨r, u⟩
      rw [hplace] at h
      cases r with
      | error refusal => cases h
      | ok fate =>
        obtain ⟨hgrows, hdoc⟩ := ih h
        exact ⟨(placing_of_place hplace).grows.trans hgrows, List.mem_cons_of_mem _ hdoc⟩

/-! ## How a file comes into reach -/

/-- A file that was there and is opened at its turn was brought into reach by making the directory above
the target, and the target has a piece of two dots. -/
theorem dots_of_opened? {turn : Turn} (hopened : turn.opened? = some l)
    (hl : turn.tree.get? l = some (.file content)) :
    ['.', '.'] ∈ Text.pieces '/' turn.target ∧
      ∃ parent, Path.parent? turn.target = some parent ∧ turn.tree.leads parent = false := by
  obtain ⟨t, target, bytes⟩ := turn
  by_cases hfile : t.isFile target = true
  · rw [opened?_of_isFile hfile] at hopened
    cases hopened
  have hnot : t.isFile target = false := Bool.eq_false_iff.2 hfile
  rcases hshelter : shelter t target with ⟨r, u⟩
  cases r with
  | error refusal =>
    rw [opened?_of_error hshelter] at hopened
    cases hopened
  | ok =>
    rw [opened?_eq_some_iff hnot hshelter] at hopened
    rcases shelter_cases t target with hsame | ⟨parent, r', u', hparent, hne, hleads, hmaking, hmade⟩
    · -- Nothing was made, so the walk that opened the file had found it before.
      rw [hsame] at hshelter
      cases hshelter
      have hloc := Tree.locate_target_of_file hopened hl (by simp)
      exact absurd (Tree.isFile_iff.2 ⟨l, content, hloc, hl⟩) hfile
    · refine ⟨?_, parent, hparent, hleads⟩
      rw [hmade] at hshelter
      cases r' with
      | error cause => cases hshelter
      | ok =>
        cases hshelter
        rw [← Path.up_mem_steps]
        by_contra hup
        have hdir : t.isDir parent = false := by
          rw [Bool.eq_false_iff]
          intro hdir
          rw [Tree.leads_of_isDir hdir] at hleads
          cases hleads
        have hempty : u.EndsEmpty parent :=
          hmaking.fresh rfl hne (Tree.up_not_mem_parent hparent hne hup) hdir
        exact hempty.not_found hparent hne hup hopened

/-- The files of `t` stay as they are under a run. -/
def KeepsFiles (t : Tree) (docs : List (Text × List UInt8)) : Prop :=
  ∀ l content, t.get? l = some (.file content) →
    (placeAll t docs).2.get? l = some (.file content)

theorem keepsFiles_iff (docs : List (Text × List UInt8)) :
    KeepsFiles t docs ↔ ∀ turn ∈ turns t docs, ∀ l content,
      t.get? l = some (.file content) → turn.opened? = some l → turn.bytes = [] := by
  constructor
  · intro h turn hturn l content hl hopened
    have hafter := get?_placeAll hl docs
    rw [h l content hl, Option.some.injEq, Entry.file.injEq] at hafter
    have hnil := List.append_right_eq_self.1 hafter.symm
    have hadded : turn.added l = [] := List.flatMap_eq_nil_iff.1 hnil turn hturn
    rwa [Turn.added, if_pos hopened] at hadded
  · intro h l content hl
    have hnil : ((turns t docs).flatMap fun turn => turn.added l) = [] := by
      rw [List.flatMap_eq_nil_iff]
      intro turn hturn
      by_cases hopened : turn.opened? = some l
      · rw [Turn.added, if_pos hopened]
        exact h turn hturn l content hl hopened
      · exact added_of_opened?_ne hopened
    rw [get?_placeAll hl docs, hnil, List.append_nil]

theorem keepsFiles_of_no_dots {docs : List (Text × List UInt8)}
    (h : ∀ doc ∈ docs, ['.', '.'] ∉ Text.pieces '/' doc.1) : KeepsFiles t docs := by
  rw [keepsFiles_iff]
  intro turn hturn l content hl hopened
  obtain ⟨hgrows, hdoc⟩ := of_mem_turns hturn
  obtain ⟨more, hl'⟩ := hgrows.file hl
  exact absurd (dots_of_opened? hopened hl').1 (h _ hdoc)

end Docblocks.Writing

namespace Docblocks.Store

/-- When writing a store leaves every old file as it is, whether it ends with a report or a refusal:
exactly when no document that has a text is added to one.  A document is added to an old file only if
its target has a piece of two dots and the path above the target led nowhere at its turn; so a store
none of whose targets has such a piece leaves all old files alone. -/
theorem write_keeps_files_iff (s : Store) (root extension : Text) (t : Tree) :
    ((∀ l content, t.get? l = some (.file content) →
        (s.write root extension t).2.get? l = some (.file content)) ↔
      ∀ turn ∈ Writing.turns t (s.outputs root extension), ∀ l content,
        t.get? l = some (.file content) → turn.opened? = some l → turn.bytes = []) ∧
    (∀ turn ∈ Writing.turns t (s.outputs root extension), ∀ l content,
      t.get? l = some (.file content) → turn.opened? = some l →
        ['.', '.'] ∈ Text.pieces '/' turn.target ∧
          ∃ parent, Path.parent? turn.target = some parent ∧ turn.tree.leads parent = false) ∧
    ((∀ path ∈ s.paths, ['.', '.'] ∉ Text.pieces '/' (Document.target root extension path)) →
      ∀ l content, t.get? l = some (.file content) →
        (s.write root extension t).2.get? l = some (.file content)) := by
  refine ⟨Writing.keepsFiles_iff _, ?_, fun hdots => Writing.keepsFiles_of_no_dots ?_⟩
  · intro turn hturn l content hl hopened
    obtain ⟨more, hl'⟩ := (Writing.of_mem_turns hturn).1.file hl
    exact Writing.dots_of_opened? hopened hl'
  · intro doc hdoc
    obtain ⟨path, hpath, rfl⟩ := List.mem_map.1 hdoc
    exact hdots path hpath

/-- The document `/c/../b` is added to the old file `docs/b.txt`: its target `docs/c/../b.txt` leads
nowhere until the directory `docs/c` has been made for it. -/
theorem write_adds_to_old_file :
    ¬ ∀ (s : Store) (root extension : Text) (t : Tree) (l : Location) (content : List UInt8),
      t.get? l = some (.file content) →
        (s.write root extension t).2.get? l = some (.file content) := by
  intro h
  let docs : Location := ["docs".toList]
  let t := (Tree.root.insert [] "docs".toList .dir).insert docs "b.txt".toList
    (.file (Text.Utf8.encode "old\n".toList))
  let s := Store.append {} ⟨"/c/../b".toList, "1".toList, ⟨["new\n".toList]⟩⟩
  have hsame := h s "docs".toList ".txt".toList t ("b.txt".toList :: docs)
    (Text.Utf8.encode "old\n".toList) (by decide +kernel)
  have hafter : (s.write "docs".toList ".txt".toList t).2.get? ("b.txt".toList :: docs) =
      some (.file (Text.Utf8.encode "old\nnew\n".toList)) := by decide +kernel
  rw [hafter] at hsame
  exact absurd hsame (by decide +kernel)

end Docblocks.Store
