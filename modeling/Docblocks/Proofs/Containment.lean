/-
# Docblocks.Proofs.Containment — where the files of a run can be.

The path of a document comes from a tag, so from any source text, and goes into its target by plain
concatenation.  Nothing keeps the target below the output root.  In a tree without links every file that
a run makes is at the landing of the target of some tag's path, and that can be anywhere: two dots lead
out, and a path that holds a slash but does not begin with one goes on with the last name of the root.
`Document.Stays` rules out both on the texts alone, and `runChecked_contained` says that it suffices.
-/
import Docblocks.Proofs.Document
import Docblocks.Proofs.Extraction
import Docblocks.Proofs.Writing.Linkless

namespace Docblocks

namespace Path

/-! ## Paths put together -/

/-- The steps of the pieces of a path, without one for a slash at its end. -/
def pieceSteps (path : Text) : List Step :=
  (Text.pieces '/' path).filterMap step?

theorem foldl_move_steps (path : Text) (l : Location) :
    (steps path).foldl Step.move l = (pieceSteps path).foldl Step.move l := by
  obtain ⟨tail, htail, hsteps⟩ := steps_eq path
  rw [hsteps, ← pieceSteps, List.foldl_append]
  rcases htail with rfl | rfl <;> rfl

/-- Where a slash stands between them, two texts put together have the steps of both. -/
theorem pieceSteps_append {a b : Text} (h : b.head? = some '/' ∨ a.getLast? = some '/') :
    pieceSteps (a ++ b) = pieceSteps a ++ pieceSteps b := by
  have hcut : ∀ x y : Text, pieceSteps (x ++ '/' :: y) = pieceSteps x ++ pieceSteps y := by
    intro x y
    rw [pieceSteps, Text.pieces_append_cons, List.filterMap_append]
    rfl
  rcases h with h | h
  · cases b with
    | nil => cases h
    | cons c b =>
      cases h
      rw [hcut, ← List.nil_append ('/' :: b), hcut]
      rfl
  · obtain ⟨a, rfl⟩ := List.getLast?_eq_some_iff.1 h
    rw [List.append_assoc, List.singleton_append, hcut, hcut, show pieceSteps [] = [] from rfl,
      List.append_nil]

/-- A text without steps holds nothing but slashes. -/
theorem getLast?_of_pieceSteps_eq_nil {path : Text} (hne : path ≠ []) (h : pieceSteps path = []) :
    path.getLast? = some '/' := by
  rw [List.getLast?_eq_some_getLast hne, Option.some.injEq]
  by_contra hc
  obtain ⟨p, hp, hmem⟩ := Text.exists_mem_pieces (List.getLast_mem hne) hc
  have hnone := List.filterMap_eq_nil_iff.1 h p hp
  unfold step? at hnone
  split at hnone
  · rename_i hempty
    rw [hempty] at hmem
    cases hmem
  · split at hnone
    · cases hnone
    · split at hnone <;> cases hnone

/-- The last part of a path that ends in a name has steps. -/
theorem pieceSteps_ne_nil {a b n : Text} (hb : b ≠ [])
    (h : (steps (a ++ b)).getLast? = some (.name n)) : pieceSteps b ≠ [] := by
  intro hnil
  have hslash : (a ++ b).getLast? = some '/' := by
    rw [List.getLast?_append, getLast?_of_pieceSteps_eq_nil hb hnil]
    rfl
  unfold steps at h
  rw [← pieceSteps] at h
  by_cases htaken : pieceSteps (a ++ b) = []
  · simp [htaken] at h
  · simp [hslash, htaken] at h

/-- Whether steps from `depth` names below a directory never lead above that directory. -/
def inside : Nat → List Step → Bool
  | _, [] => true
  | depth, .name _ :: rest => inside (depth + 1) rest
  | depth, .here :: rest => inside depth rest
  | depth, .slash :: rest => inside depth rest
  | 0, .up :: _ => false
  | depth + 1, .up :: rest => inside depth rest

/-- Steps that never lead above a directory do not depend on where it is. -/
theorem foldl_move_append (steps : List Step) (inner l : Location)
    (h : inside inner.length steps = true) :
    steps.foldl Step.move (inner ++ l) = steps.foldl Step.move inner ++ l := by
  induction steps generalizing inner with
  | nil => rfl
  | cons step rest ih =>
    cases step with
    | name n => exact ih (n :: inner) h
    | here => exact ih inner h
    | slash => exact ih inner h
    | up =>
      cases inner with
      | nil => cases h
      | cons n inner => exact ih inner h

end Path

namespace Document

/-! ## Targets -/

/-- Nothing in a path leads out of the output root: behind the root a new piece begins, and no two dots
from there on lead above it. -/
def Stays (root extension path : Text) : Prop :=
  (path.head? = some '/' ∨ '/' ∉ path ∨ root.getLast? = some '/') ∧
    Path.inside 0 (Path.pieceSteps (path ++ extension)) = true

instance (root extension path : Text) : Decidable (Stays root extension path) :=
  inferInstanceAs (Decidable (_ ∧ _))

theorem Stays.cut {root extension path : Text} (h : Stays root extension path) :
    (behindRoot extension path).head? = some '/' ∨ root.getLast? = some '/' := by
  unfold behindRoot
  rcases h.1 with hhead | hnot | hroot
  · left
    cases path with
    | nil => cases hhead
    | cons c path =>
      cases hhead
      rw [if_pos List.mem_cons_self]
      rfl
  · left
    rw [if_neg hnot]
    rfl
  · exact Or.inr hroot

theorem Stays.inside {root extension path : Text} (h : Stays root extension path) :
    Path.inside 0 (Path.pieceSteps (behindRoot extension path)) = true := by
  unfold behindRoot
  by_cases hslash : '/' ∈ path
  · rw [if_pos hslash]
    exact h.2
  · rw [if_neg hslash]
    exact h.2

end Document

namespace Tree

/-! ## Below a directory -/

variable {t : Tree} {root rest : Text}

theorem base_append (cwd : Location) (hroot : root ≠ []) (rest : Text) :
    base cwd (root ++ rest) = base cwd root := by
  cases root with
  | nil => exact absurd rfl hroot
  | cons c root => rfl

theorem Walkable.of_append (h : Walkable (root ++ rest)) (hroot : root ≠ []) : Walkable root := by
  obtain ⟨hnul, _, hlong⟩ := h
  refine ⟨fun hmem => hnul (List.mem_append_left _ hmem), hroot, ?_⟩
  have hlength : Text.Utf8.byteLength (root ++ rest) =
      Text.Utf8.byteLength root + Text.Utf8.byteLength rest := by
    simp [Text.Utf8.byteLength, Text.Utf8.encode]
  omega

theorem landing_append (hroot : root ≠ [])
    (hcut : rest.head? = some '/' ∨ root.getLast? = some '/') (cwd : Location) :
    landing cwd (root ++ rest) = (Path.pieceSteps rest).foldl Path.Step.move (landing cwd root) := by
  rw [landing, landing, base_append cwd hroot, Path.foldl_move_steps, Path.foldl_move_steps,
    Path.pieceSteps_append hcut, List.foldl_append]

/-- A path that leads somewhere has led through the directory that its first part names. -/
theorem isDir_of_append (hroot : root ≠ []) (hrest : Path.pieceSteps rest ≠ [])
    (hcut : rest.head? = some '/' ∨ root.getLast? = some '/') {p : Place}
    (h : t.locate .target (root ++ rest) = .ok p) :
    ∃ d, t.locate .target root = .ok (.found d) ∧ t.get? d = some .dir := by
  obtain ⟨hwalk, hroute⟩ := locate_eq_ok_iff.1 h
  obtain ⟨tail, _, hsteps⟩ := Path.steps_eq (root ++ rest)
  rw [← Path.pieceSteps, Path.pieceSteps_append hcut, List.append_assoc] at hsteps
  rw [base_append _ hroot, hsteps] at hroute
  obtain ⟨d, hd, hdir⟩ := hroute.of_append (get?_base (get?_cwd t) root) (by simp [hrest])
  refine ⟨d, locate_eq_ok_iff.2 ⟨hwalk.of_append hroot, ?_⟩, hdir⟩
  obtain ⟨tail', htail', hsteps'⟩ := Path.steps_eq root
  rw [hsteps', ← Path.pieceSteps]
  rcases htail' with rfl | rfl
  · rw [List.append_nil]
    exact hd
  · exact hd.append_slash rfl hdir

/-- A location strictly below the one that a path is written for. -/
def Below (cwd : Location) (root : Text) (l : Location) : Prop :=
  landing cwd root <:+ l ∧ landing cwd root ≠ l

end Tree

/-! ## What a run makes -/

/-- A file that is made for a path that stays is below the root, which is a directory by then. -/
theorem Writing.below_of_makes {t : Tree} {docs : List (Text × List UInt8)} (hlinks : t.Linkless)
    {turn : Turn} (hturn : turn ∈ turns t docs) {l : Location} (hmakes : turn.Makes l)
    {content : List UInt8} (hfile : (placeAll t docs).2.get? l = some (.file content))
    {root extension path : Text} (hroot : root ≠ [])
    (htarget : turn.target = Document.target root extension path)
    (hstays : Document.Stays root extension path) :
    (placeAll t docs).2.isDir root = true ∧ Tree.Below t.cwd root l := by
  rw [Document.target_eq] at htarget
  -- The target ends in the name of the new file, so there are steps behind the root.
  have hsteps : Path.pieceSteps (Document.behindRoot extension path) ≠ [] := by
    obtain ⟨_, v, d, n, hshelter, hvacant, _⟩ := hmakes
    have hlinks' := (tree_of_mem_turns hlinks hturn).1.adds_dirs (adds_shelter hshelter)
    have hlast := (Tree.locate_eq_ok_iff.1 hvacant).2.getLast?_of_vacant hlinks' rfl
    rw [htarget] at hlast
    exact Path.pieceSteps_ne_nil (Document.behindRoot_ne_nil extension path) hlast
  have hlocate := locate_of_makes hturn hmakes
  rw [htarget] at hlocate
  obtain ⟨d, hd, hdir⟩ := Tree.isDir_of_append hroot hsteps hstays.cut hlocate
  have hd' : d = Tree.landing t.cwd root := by
    rw [← (grows_placeAll t docs).cwd]
    exact Tree.landing_of_locate hd (linkless_placeAll hlinks docs)
  refine ⟨Tree.isDir_iff.2 ⟨d, hd, hdir⟩, ?_, ?_⟩
  · rw [landing_of_makes hlinks hturn hmakes, htarget, Tree.landing_append hroot hstays.cut]
    exact ⟨_, (Path.foldl_move_append _ [] (Tree.landing t.cwd root) hstays.inside).symm⟩
  · rintro rfl
    rw [← hd', hdir] at hfile
    cases hfile

namespace Extraction

/-- Whatever comes of a run, it has left the tree alone or has written the documents of its sources. -/
theorem runChecked_tree (s : Settings) (t : Tree) :
    (runChecked s t).2 = t ∨ s.output ≠ [] ∧ ∃ scan, Scan.ofTexts t s.patterns = .ok scan ∧
      (runChecked s t).2 = (Writing.placeAll t ((Store.appendAll {}
        (fragments t s.markers scan.files)).outputs s.output s.extension)).2 := by
  unfold runChecked
  cases hlack : s.lack? with
  | some lack => exact Or.inl rfl
  | none =>
    unfold run
    cases hscan : Scan.ofTexts t s.patterns with
    | error fault => exact Or.inl rfl
    | ok scan =>
      cases hgather : gather t s.markers {} scan.files with
      | error refusal => exact Or.inl (by simp only [hgather])
      | ok store =>
        refine Or.inr ⟨output_ne_nil hlack, scan, rfl, ?_⟩
        obtain ⟨_, rfl⟩ := store_of_gather hgather
        simp only [hgather]
        rw [← Store.write]
        rcases (Store.appendAll {} (fragments t s.markers scan.files)).write s.output s.extension t
          with ⟨r, u⟩
        cases r <;> rfl

/-- Every file that a run makes in a tree without links, whatever comes of the run, is at the landing of
the target of a tag's path; and if that path stays, the output is a directory and the file is below it. -/
theorem runChecked_contained (s : Settings) (t : Tree) (hlinks : t.Linkless) (l : Location)
    (content : List UInt8) (hold : t.get? l = none)
    (hnew : (runChecked s t).2.get? l = some (.file content)) :
    ∃ scan, Scan.ofTexts t s.patterns = .ok scan ∧ ∃ f ∈ fragments t s.markers scan.files,
      l = Tree.landing t.cwd (Document.target s.output s.extension f.path) ∧
        (Document.Stays s.output s.extension f.path →
          (runChecked s t).2.isDir s.output = true ∧ Tree.Below t.cwd s.output l) := by
  rcases runChecked_tree s t with heq | ⟨houtput, scan, hscan, heq⟩
  · rw [heq, hold] at hnew
    cases hnew
  · refine ⟨scan, hscan, ?_⟩
    rw [heq] at hnew ⊢
    rcases Writing.origin_placeAll hnew with ⟨e, he, _⟩ | hdir | ⟨_, turn, hturn, hmakes⟩
    · rw [hold] at he
      cases he
    · cases hdir
    · obtain ⟨f, hf, hdoc⟩ := mem_outputs.1 (Writing.of_mem_turns hturn).2
      have htarget : turn.target = Document.target s.output s.extension f.path :=
        congrArg Prod.fst hdoc
      refine ⟨f, hf, htarget ▸ Writing.landing_of_makes hlinks hturn hmakes, ?_⟩
      exact Writing.below_of_makes hlinks hturn hmakes hnew houtput htarget

/-- A source with one block for each of these tags. -/
def tagged (tags : List String) : Tree :=
  Tree.root.insert [] "a.js".toList (.file (Text.Utf8.encode (tags.flatMap fun tag =>
    "/** @scratch ".toList ++ tag.toList ++ "\n * text\n */\n".toList)))

/-- The source by name, and documents below `docs`. -/
def oneName : Settings where
  patterns := ["a.js".toList]
  output := "docs".toList

/-- A tag that goes up, but not above the root, and one without a slash in its path. -/
def upAndDown : Tree :=
  tagged ["/a/../b/1", "c/1"]

theorem runChecked_contained_upAndDown :
    (runChecked oneName upAndDown).2.isDir "docs".toList = true ∧
      Tree.Below upAndDown.cwd "docs".toList ["b.txt".toList, "docs".toList] := by
  have hlinks : upAndDown.Linkless := by
    unfold Tree.Linkless
    decide +kernel
  have hold : upAndDown.get? ["b.txt".toList, "docs".toList] = none := by decide +kernel
  have hnew : Tree.get? (runChecked oneName upAndDown).2 ["b.txt".toList, "docs".toList] =
      some (.file (Text.Utf8.encode "text\n".toList)) := by decide +kernel
  have hfiles : (Scan.ofTexts upAndDown oneName.patterns).toOption.map Scan.files =
      some ["a.js".toList] := by decide +kernel
  have hstays : ∀ f ∈ fragments upAndDown oneName.markers ["a.js".toList],
      Document.Stays oneName.output oneName.extension f.path := by decide +kernel
  obtain ⟨scan, hscan, f, hf, _, hbelow⟩ :=
    runChecked_contained oneName upAndDown hlinks _ _ hold hnew
  rw [hscan, Except.toOption, Option.map_some, Option.some.injEq] at hfiles
  rw [hfiles] at hf
  exact hbelow (hstays f hf)

/-- Tags lead out of the output root: the document of `x/y` is in `docsx`, beside `docs`. -/
theorem runChecked_escapes :
    ¬ ∀ (s : Settings) (t : Tree) (l : Location) (content : List UInt8), t.Linkless →
      s.lack? = none → t.get? l = none → (runChecked s t).2.get? l = some (.file content) →
      Tree.Below t.cwd s.output l := by
  intro h
  have hlinks : (tagged ["x/y/1"]).Linkless := by
    unfold Tree.Linkless
    decide +kernel
  have hold : (tagged ["x/y/1"]).get? ["y.txt".toList, "docsx".toList] = none := by decide +kernel
  have hnew : Tree.get? (runChecked oneName (tagged ["x/y/1"])).2 ["y.txt".toList, "docsx".toList] =
      some (.file (Text.Utf8.encode "text\n".toList)) := by decide +kernel
  have hbelow := h oneName _ _ _ hlinks (by decide +kernel) hold hnew
  exact absurd hbelow.1 (by decide +kernel)

end Extraction

end Docblocks
