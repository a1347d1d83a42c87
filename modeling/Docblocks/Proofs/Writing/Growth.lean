/-
# Docblocks.Proofs.Writing.Growth — what has been written stays.

A run of the writer is its turns.  The first part says what a run does to a tree that is not known: the
tree only grows, turn by turn and whatever comes of the run (`grows_placeAll`), and what is new is a
directory or a file that some turn has made (`origin_placeAll`).  Growth keeps all walks, so a path that
led somewhere leads there still.  The second part is about runs that end with a report.  Each of their
documents is settled, which growth does not undo, and settled documents leave the tree alone: a second
run changes nothing.
-/
import Docblocks.Proofs.Writing.OldFiles

namespace Docblocks

namespace Tree

/-- What has been made a directory is one. -/
theorem Making.isDir {t u : Tree} {path : Text} (h : Making t path (.ok ()) u) (hpath : path ≠ []) :
    u.isDir path = true := by
  have hmade : ∀ {s v : Tree}, s.makeDir path = .ok v → v.isDir path = true := by
    intro s v hmake
    obtain ⟨d, hloc, hd, _⟩ := endsEmpty_of_makeDir hmake
    exact isDir_iff.2 ⟨d, hloc, hd⟩
  cases h with
  | empty => exact absurd rfl hpath
  | made _ hmake => exact hmade hmake
  | there _ _ _ hdir => exact hdir
  | madeAfter _ _ _ hmake => exact hmade hmake
  | thereAfter _ _ _ _ hdir => exact hdir

end Tree

namespace Writing

variable {t u v : Tree} {target : Text} {bytes : List UInt8} {docs : List (Text × List UInt8)}

/-! ## Turns -/

/-- The document of a turn. -/
def Turn.doc (turn : Turn) : Text × List UInt8 :=
  (turn.target, turn.bytes)

/-- Whether the document is skipped. -/
def Turn.skips (turn : Turn) : Bool :=
  turn.tree.isFile turn.target

/-- The document becomes a new file at this location. -/
def Turn.Makes (turn : Turn) (l : Location) : Prop :=
  turn.skips = false ∧ ∃ u d n, shelter turn.tree turn.target = (.ok (), u) ∧
    u.locate .file turn.target = .ok (.vacant d n) ∧ l = n :: d

theorem turns_cons_of_ok {fate : Fate} (h : place t target bytes = (.ok fate, u)) :
    turns t ((target, bytes) :: docs) = ⟨t, target, bytes⟩ :: turns u docs := by
  rw [turns, h]

theorem turns_cons_of_error {refusal : Refusal} (h : place t target bytes = (.error refusal, u)) :
    turns t ((target, bytes) :: docs) = [⟨t, target, bytes⟩] := by
  rw [turns, h]

/-- The tree at a turn is what writing the documents of the turns before it has left. -/
theorem placeAll_of_turns {before after : List Turn} {turn : Turn}
    (h : turns t docs = before ++ turn :: after) :
    (∃ report, placeAll t (before.map Turn.doc) = (.ok report, turn.tree)) ∧
      turns t (before.map Turn.doc) = before := by
  induction before generalizing t docs with
  | nil =>
    cases docs with
    | nil => cases h
    | cons doc docs =>
      rw [turns] at h
      obtain ⟨rfl, _⟩ := List.cons.inj h
      exact ⟨⟨{}, rfl⟩, rfl⟩
  | cons first before ih =>
    cases docs with
    | nil => cases h
    | cons doc docs =>
      obtain ⟨target, bytes⟩ := doc
      rcases hplace : place t target bytes with ⟨r, u⟩
      cases r with
      | error refusal =>
        rw [turns_cons_of_error hplace] at h
        obtain ⟨_, hnil⟩ := List.cons.inj h
        simp at hnil
      | ok fate =>
        rw [turns_cons_of_ok hplace] at h
        obtain ⟨rfl, hrest⟩ := List.cons.inj h
        obtain ⟨⟨report, hrun⟩, hturns⟩ := ih hrest
        constructor
        · refine ⟨report.cons fate target, ?_⟩
          simp only [List.map_cons, Turn.doc, placeAll, hplace]
          rw [hrun]
        · rw [List.map_cons, Turn.doc, turns_cons_of_ok hplace, hturns]

/-! ## The tree only grows -/

/-- One document after the other, up to a refusal or to the end, the tree only grows. -/
theorem grows_placeAll (t : Tree) (docs : List (Text × List UInt8)) :
    Tree.Grows t (placeAll t docs).2 := by
  induction docs generalizing t with
  | nil => exact Tree.Grows.refl t
  | cons doc docs ih =>
    obtain ⟨target, bytes⟩ := doc
    rw [snd_placeAll_cons]
    rcases hplace : place t target bytes with ⟨r, u⟩
    have hgrows := (placing_of_place hplace).grows
    cases r with
    | error refusal => exact hgrows
    | ok fate => exact hgrows.trans (ih u)

/-- What a turn leaves only grows until the end of the run. -/
theorem grows_of_mem_turns {turn : Turn} (hturn : turn ∈ turns t docs) :
    Tree.Grows (place turn.tree turn.target turn.bytes).2 (placeAll t docs).2 := by
  induction docs generalizing t with
  | nil => cases hturn
  | cons doc docs ih =>
    obtain ⟨target, bytes⟩ := doc
    rw [snd_placeAll_cons]
    rcases hplace : place t target bytes with ⟨r, u⟩
    cases r with
    | error refusal =>
      rw [turns_cons_of_error hplace, List.mem_singleton] at hturn
      rw [hturn, hplace]
      exact Tree.Grows.refl u
    | ok fate =>
      rw [turns_cons_of_ok hplace] at hturn
      rcases List.mem_cons.1 hturn with rfl | hturn
      · rw [hplace]
        exact grows_placeAll u docs
      · exact ih hturn

/-- The target of a document that becomes a new file leads to it. -/
theorem locate_of_makes {turn : Turn} (hturn : turn ∈ turns t docs) {l : Location}
    (h : turn.Makes l) : (placeAll t docs).2.locate .target turn.target = .ok (.found l) := by
  obtain ⟨hskips, v, d, n, hshelter, hloc, rfl⟩ := h
  have hplace : (place turn.tree turn.target turn.bytes).2 = v.insert d n (.file turn.bytes) := by
    unfold place
    rw [if_neg (by rw [show turn.tree.isFile turn.target = false from hskips]; simp)]
    simp only [hshelter, Tree.append, hloc]
  have hgrows := grows_of_mem_turns hturn
  rw [hplace] at hgrows
  exact hgrows.locate (Tree.locate_insert_file hloc turn.bytes).1

/-- What a document adds to a tree: directories, and at most one file, at a free name that the target
leads to. -/
theorem Placing.origin {r : Except Refusal Fate} (h : Placing t target bytes r u) {l : Location}
    {e : Entry} (hl : u.get? l = some e) :
    (∃ e', t.get? l = some e' ∧ e'.Grows e) ∨ e = .dir ∨
      ((∃ content, e = .file content) ∧ (Turn.mk t target bytes).Makes l) := by
  -- After `shelter` only directories are new; the rest of a turn touches one location more.
  have hshelter : ∀ {r v k e}, shelter t target = (r, v) → v.get? k = some e →
      (∃ e', t.get? k = some e' ∧ e'.Grows e) ∨ e = .dir := by
    intro r v k e hv hk
    rcases (adds_shelter hv).only k e hk with hk | hdir
    · exact Or.inl ⟨e, hk, Entry.Grows.refl e⟩
    · exact Or.inr hdir.1
  cases h with
  | skipped => exact Or.inl ⟨e, hl, Entry.Grows.refl e⟩
  | unsheltered _ hv => exact (hshelter hv hl).imp_right Or.inl
  | refused _ hv => exact (hshelter hv hl).imp_right Or.inl
  | swallowed _ hv => exact (hshelter hv hl).imp_right Or.inl
  | @made v d n hfile hv hloc =>
    rcases (Tree.adds_insert v d n (.file bytes)).only l e hl with hold | ⟨rfl, rfl⟩
    · exact (hshelter hv hold).imp_right Or.inl
    · exact Or.inr (Or.inr ⟨⟨bytes, rfl⟩, hfile, v, d, n, hv, hloc, rfl⟩)
  | @added v k content hfile hv hloc hget =>
    rw [Tree.get?_setContent] at hl
    by_cases hlk : l = k
    · -- The file was there before the directories were made, because it is none.
      rw [if_pos hlk, hlk, hget] at hl
      cases hl
      exact Or.inl ⟨.file content, hlk ▸ get?_of_shelter hv hget (by simp), bytes, rfl⟩
    · rw [if_neg hlk] at hl
      exact (hshelter hv hl).imp_right Or.inl

/-- Whatever is in the tree after a run was there and has grown, or is a directory, or is a file that
was made in one of the turns. -/
theorem origin_placeAll {l : Location} {e : Entry} (hl : (placeAll t docs).2.get? l = some e) :
    (∃ e', t.get? l = some e' ∧ e'.Grows e) ∨ e = .dir ∨
      ((∃ content, e = .file content) ∧ ∃ turn ∈ turns t docs, turn.Makes l) := by
  induction docs generalizing t with
  | nil => exact Or.inl ⟨e, hl, Entry.Grows.refl e⟩
  | cons doc docs ih =>
    obtain ⟨target, bytes⟩ := doc
    rw [snd_placeAll_cons] at hl
    rcases hplace : place t target bytes with ⟨r, u⟩
    have hplacing := placing_of_place hplace
    rw [hplace] at hl
    cases r with
    | error refusal =>
      rw [turns_cons_of_error hplace]
      refine (hplacing.origin hl).imp_right (Or.imp_right ?_)
      exact fun h => ⟨h.1, _, List.mem_singleton_self _, h.2⟩
    | ok fate =>
      rw [turns_cons_of_ok hplace]
      rcases ih hl with ⟨e', hu, hgrows⟩ | hdir | ⟨hfile, turn, hturn, hmakes⟩
      · rcases hplacing.origin hu with ⟨e'', ht, hgrows'⟩ | rfl | ⟨⟨content, rfl⟩, hmakes⟩
        · exact Or.inl ⟨e'', ht, hgrows'.trans hgrows⟩
        · exact Or.inr (Or.inl hgrows)
        · obtain ⟨more, rfl⟩ := hgrows
          exact Or.inr (Or.inr ⟨⟨_, rfl⟩, _, List.mem_cons_self, hmakes⟩)
      · exact Or.inr (Or.inl hdir)
      · exact Or.inr (Or.inr ⟨hfile, turn, List.mem_cons_of_mem _ hturn, hmakes⟩)

/-- A run makes no entry but directories and files. -/
theorem get?_of_placeAll {l : Location} {e : Entry} (hl : (placeAll t docs).2.get? l = some e)
    (hdir : e ≠ .dir) (hfile : ∀ content, e ≠ .file content) : t.get? l = some e := by
  rcases origin_placeAll hl with ⟨e', he', hgrows⟩ | heq | ⟨⟨content, heq⟩, _⟩
  · cases e' with
    | file content =>
      obtain ⟨more, heq⟩ := hgrows
      exact absurd heq (hfile _)
    | dir => exact absurd hgrows hdir
    | link text => rw [he', show e = .link text from hgrows]
    | device => rw [he', show e = .device from hgrows]
  · exact absurd heq hdir
  · exact absurd heq (hfile content)

/-! ## Runs that end with a report -/

/-- A document that is not refused is skipped if its target leads to a file, and written if not. -/
theorem Placing.fate_eq {fate : Fate} (h : Placing t target bytes (.ok fate) u) :
    fate = if t.isFile target then .skipped else .written := by
  cases h with
  | skipped hfile => rw [if_pos hfile]
  | made hfile => simp only [hfile, Bool.false_eq_true, if_false]
  | added hfile => simp only [hfile, Bool.false_eq_true, if_false]
  | swallowed hfile => simp only [hfile, Bool.false_eq_true, if_false]

/-- In a run that ends with a report all documents have their turn, and a turn that skips is reported as
skipped and any other as written. -/
theorem placeAll_eq_ok {report : Report} (h : placeAll t docs = (.ok report, u)) :
    (turns t docs).map Turn.doc = docs ∧
      report.written = ((turns t docs).filter fun turn => !turn.skips).map Turn.target ∧
      report.skipped = ((turns t docs).filter Turn.skips).map Turn.target := by
  induction docs generalizing t report with
  | nil =>
    rw [placeAll] at h
    cases h
    exact ⟨rfl, rfl, rfl⟩
  | cons doc docs ih =>
    obtain ⟨target, bytes⟩ := doc
    obtain ⟨fate, v, report', hplace, hrest, rfl⟩ := placeAll_cons_eq_ok h
    obtain ⟨hdocs, hwritten, hskipped⟩ := ih hrest
    have hfate := (placing_of_place hplace).fate_eq
    rw [turns_cons_of_ok hplace]
    refine ⟨by rw [List.map_cons, hdocs]; rfl, ?_⟩
    cases hfile : t.isFile target with
    | true =>
      have hskips : (Turn.mk t target bytes).skips = true := hfile
      rw [hfile, if_pos rfl] at hfate
      rw [List.filter_cons_of_neg (by simp [hskips]), List.filter_cons_of_pos hskips, List.map_cons,
        ← hwritten, ← hskipped, hfate]
      exact ⟨rfl, rfl⟩
    | false =>
      have hskips : (Turn.mk t target bytes).skips = false := hfile
      rw [hfile, if_neg (by simp)] at hfate
      rw [List.filter_cons_of_pos (by simp [hskips]), List.filter_cons_of_neg (by simp [hskips]),
        List.map_cons, ← hwritten, ← hskipped, hfate]
      exact ⟨rfl, rfl⟩

/-- In such a run no turn is refused. -/
theorem place_of_mem_turns {report : Report} (h : placeAll t docs = (.ok report, u)) {turn : Turn}
    (hturn : turn ∈ turns t docs) :
    ∃ fate v, Placing turn.tree turn.target turn.bytes (.ok fate) v ∧ Tree.Grows v u := by
  have hok : ∃ fate, (place turn.tree turn.target turn.bytes).1 = .ok fate := by
    induction docs generalizing t report with
    | nil => cases hturn
    | cons doc docs ih =>
      obtain ⟨target, bytes⟩ := doc
      obtain ⟨fate, v, report', hplace, hrest, rfl⟩ := placeAll_cons_eq_ok h
      rw [turns_cons_of_ok hplace] at hturn
      rcases List.mem_cons.1 hturn with rfl | hturn
      · exact ⟨fate, by rw [hplace]⟩
      · exact ih hrest hturn
  obtain ⟨fate, hfate⟩ := hok
  have hplacing := placing_place turn.tree turn.target turn.bytes
  have hgrows := grows_of_mem_turns hturn
  rw [hfate] at hplacing
  rw [h] at hgrows
  exact ⟨fate, _, hplacing, hgrows⟩

/-- A document that was written stands at the end of the file that its target leads to, unless it has no
text and went to the device. -/
theorem Placing.reaches (h : Placing t target bytes (.ok .written) u) :
    (∃ l before, u.locate .target target = .ok (.found l) ∧
        u.get? l = some (.file (before ++ bytes))) ∨
      (bytes = [] ∧ shelter t target = (.ok (), u) ∧
        ∃ l, u.locate .file target = .ok (.found l) ∧ u.get? l = some .device) := by
  cases h with
  | @made v d n _ _ hloc =>
    obtain ⟨hleads, hget⟩ := Tree.locate_insert_file hloc bytes
    exact Or.inl ⟨n :: d, [], hleads, hget⟩
  | @added v l content _ _ hloc hget =>
    have hleads := Tree.locate_target_of_file hloc hget (by simp)
    refine Or.inl ⟨l, content, (Tree.grows_setContent hget bytes).locate hleads, ?_⟩
    rw [Tree.get?_setContent, if_pos rfl, hget]
    rfl
  | swallowed _ hshelter hloc hget hbytes => exact Or.inr ⟨hbytes, hshelter, _, hloc, hget⟩

/-! ## A second run -/

/-- Nothing is left to do for a document: its target leads to a file, or the document has no text and
its target leads to the device. -/
def Settled (t : Tree) (target : Text) (bytes : List UInt8) : Prop :=
  t.isFile target = true ∨ (bytes = [] ∧ shelter t target = (.ok (), t) ∧
    ∃ l, t.locate .file target = .ok (.found l) ∧ t.get? l = some .device)

/-- Once there is a directory above a target, none is made again. -/
theorem shelter_again (h : shelter t target = (.ok (), u)) (hgrows : Tree.Grows u v) :
    shelter v target = (.ok (), v) := by
  unfold shelter at h ⊢
  cases hparent : Path.parent? target with
  | none => rfl
  | some parent =>
    simp only [hparent] at h ⊢
    refine if_pos ?_
    by_cases hne : parent = []
    · exact Or.inl hne
    right
    by_cases hleads : t.leads parent = true
    · rw [if_pos (Or.inr hleads)] at h
      cases h
      exact hgrows.leads hleads
    · rw [if_neg (not_or.2 ⟨hne, hleads⟩)] at h
      rcases hmake : t.makeDirs parent with ⟨r, w⟩
      rw [hmake] at h
      cases r with
      | error cause => cases h
      | ok =>
        cases h
        exact hgrows.leads (Tree.leads_of_isDir ((Tree.making_of_makeDirs hmake).isDir hne))

theorem Settled.grow (h : Settled t target bytes) (hgrows : Tree.Grows t u) :
    Settled u target bytes := by
  rcases h with hfile | ⟨hbytes, hshelter, l, hloc, hget⟩
  · exact Or.inl (hgrows.isFile hfile)
  · obtain ⟨e, hget', rfl⟩ := hgrows.entries l _ hget
    exact Or.inr ⟨hbytes, shelter_again hshelter hgrows, l, hgrows.locate hloc, hget'⟩

theorem Placing.settled {fate : Fate} (h : Placing t target bytes (.ok fate) u) :
    Settled u target bytes := by
  cases fate with
  | skipped =>
    cases h with
    | skipped hfile => exact Or.inl hfile
  | written =>
    rcases h.reaches with ⟨l, before, hloc, hget⟩ | ⟨hbytes, hshelter, hdevice⟩
    · exact Or.inl (Tree.isFile_iff.2 ⟨l, _, hloc, hget⟩)
    · exact Or.inr ⟨hbytes, shelter_again hshelter (Tree.Grows.refl u), hdevice⟩

/-- After a run that ends with a report every document is settled. -/
theorem settled_placeAll {report : Report} (h : placeAll t docs = (.ok report, u))
    {doc : Text × List UInt8} (hdoc : doc ∈ docs) : Settled u doc.1 doc.2 := by
  rw [← (placeAll_eq_ok h).1] at hdoc
  obtain ⟨turn, hturn, rfl⟩ := List.mem_map.1 hdoc
  obtain ⟨fate, v, hplacing, hgrows⟩ := place_of_mem_turns h hturn
  exact hplacing.settled.grow hgrows

/-- A settled document whose target is no file goes to the device. -/
theorem Settled.entry?_eq (h : Settled t target bytes) :
    t.entry? target = some .device ↔ t.isFile target = false := by
  rcases h with hfile | ⟨_, _, l, hloc, hget⟩
  · obtain ⟨k, content, hk, hcontent⟩ := Tree.isFile_iff.1 hfile
    simp [hfile, Tree.entry?_eq_some_iff.2 ⟨k, hk, hcontent⟩]
  · have hentry : t.entry? target = some .device :=
      Tree.entry?_eq_some_iff.2 ⟨l, Tree.locate_target_of_file hloc hget (by simp), hget⟩
    simp [Tree.isFile, hentry]

/-- A settled document leaves the tree as it is. -/
theorem Settled.place_eq (h : Settled t target bytes) :
    place t target bytes = (.ok (if t.isFile target then .skipped else .written), t) := by
  unfold place
  by_cases hfile : t.isFile target = true
  · rw [if_pos hfile, if_pos hfile]
  · rcases h with hfile' | ⟨hbytes, hshelter, l, hloc, hget⟩
    · exact absurd hfile' hfile
    · simp [hfile, hshelter, Tree.append, hloc, hget, hbytes]

theorem placeAll_of_settled (h : ∀ doc ∈ docs, Settled t doc.1 doc.2) :
    placeAll t docs = (.ok { written := (docs.map Prod.fst).filter fun target => !t.isFile target
                             skipped := (docs.map Prod.fst).filter fun target => t.isFile target },
      t) := by
  induction docs with
  | nil => rfl
  | cons doc docs ih =>
    obtain ⟨target, bytes⟩ := doc
    have hplace := (h (target, bytes) List.mem_cons_self).place_eq
    have hrest := ih fun doc hdoc => h doc (List.mem_cons_of_mem _ hdoc)
    rw [placeAll, hplace]
    cases hfile : t.isFile target <;> simp [hfile, hrest, Report.cons]

end Writing

namespace Store

/-- Whatever comes of writing a store, the tree only grows: every entry is still there, of its kind, a
link with its text and a file with its bytes in front of any new ones; and every path that led to an
entry, over links or not, leads to it still. -/
theorem write_grows (s : Store) (root extension : Text) (t : Tree) :
    Tree.Grows t (s.write root extension t).2 ∧
      ∀ aim path l, t.locate aim path = .ok (.found l) →
        (s.write root extension t).2.locate aim path = .ok (.found l) := by
  have hgrows := Writing.grows_placeAll t (s.outputs root extension)
  exact ⟨hgrows, fun aim path l => hgrows.locate⟩

theorem fst_outputs (s : Store) (root extension : Text) :
    (s.outputs root extension).map Prod.fst = s.paths.map (Document.target root extension) := by
  rw [outputs, List.map_map]
  rfl

/-- A run that ends with a report leaves a tree that a second run leaves as it is.  The second run skips
all targets but those that lead to a device, which are reported as written again; where no target leads
to one, it skips all of them. -/
theorem write_again (s : Store) (root extension : Text) (t u : Tree) (report : Report)
    (hwrite : s.write root extension t = (.ok report, u)) :
    s.write root extension u =
        (.ok { written := (s.paths.map (Document.target root extension)).filter fun target =>
                 u.entry? target = some .device
               skipped := (s.paths.map (Document.target root extension)).filter fun target =>
                 u.isFile target }, u) ∧
      ((∀ l, t.get? l = some .device → ∀ path ∈ s.paths,
          u.locate .target (Document.target root extension path) ≠ .ok (.found l)) →
        s.write root extension u =
          (.ok { written := [], skipped := s.paths.map (Document.target root extension) }, u)) := by
  have hsettled : ∀ doc ∈ s.outputs root extension, Writing.Settled u doc.1 doc.2 :=
    fun doc hdoc => Writing.settled_placeAll hwrite hdoc
  have hagain := Writing.placeAll_of_settled hsettled
  rw [fst_outputs] at hagain
  have hpath : ∀ path ∈ s.paths, (u.entry? (Document.target root extension path) = some .device ↔
      u.isFile (Document.target root extension path) = false) := by
    intro path hpath
    exact (hsettled _ (List.mem_map_of_mem hpath)).entry?_eq
  constructor
  · rw [write, hagain]
    congr 3
    refine List.filter_congr fun target htarget => ?_
    obtain ⟨path, hmem, rfl⟩ := List.mem_map.1 htarget
    rw [Bool.eq_iff_iff, Bool.not_eq_true', decide_eq_true_eq, hpath path hmem]
  · intro hdevice
    have hfile : ∀ target ∈ s.paths.map (Document.target root extension), u.isFile target = true := by
      intro target htarget
      obtain ⟨path, hmem, rfl⟩ := List.mem_map.1 htarget
      by_contra hnot
      obtain ⟨l, hloc, hl⟩ :=
        Tree.entry?_eq_some_iff.1 ((hpath path hmem).2 (Bool.eq_false_iff.2 hnot))
      -- A device is never made, so a target that leads to one now leads to an old one.
      have hu : (Writing.placeAll t (s.outputs root extension)).2 = u := by rw [← write, hwrite]
      rw [← hu] at hl
      exact hdevice l (Writing.get?_of_placeAll hl (by simp) (by simp)) path hmem hloc
    rw [write, hagain, List.filter_eq_self.2 hfile, List.filter_eq_nil_iff.2]
    intro target htarget
    simp [hfile target htarget]

/-- A directory behind a link, in which a link leads nowhere yet and another one to an old file. -/
def linkedDocs : Tree :=
  Tree.root
    |>.insert [] "out".toList .dir
    |>.insert [] "docs".toList (.link "out".toList)
    |>.insert [] "kept".toList (.file (Text.Utf8.encode "kept\n".toList))
    |>.insert ["out".toList] "new.txt".toList (.link "made.txt".toList)
    |>.insert ["out".toList] "old.txt".toList (.link "../kept".toList)

/-- Three documents, of which one has a target that goes through a directory not there yet. -/
def threeDocuments : Store :=
  appendAll {} [⟨"/a/../b".toList, "1".toList, ⟨["b\n".toList]⟩⟩,
    ⟨"/new".toList, "1".toList, ⟨["new\n".toList]⟩⟩, ⟨"/old".toList, "1".toList, ⟨["old\n".toList]⟩⟩]

theorem write_again_linkedDocs :
    ∃ report u, threeDocuments.write "docs".toList ".txt".toList linkedDocs = (.ok report, u) ∧
      report.written = ["docs/a/../b.txt".toList, "docs/new.txt".toList] ∧
      report.skipped = ["docs/old.txt".toList] ∧
      threeDocuments.write "docs".toList ".txt".toList u =
        (.ok { written := []
               skipped := ["docs/a/../b.txt".toList, "docs/new.txt".toList,
                 "docs/old.txt".toList] }, u) := by
  have hok : ((threeDocuments.write "docs".toList ".txt".toList linkedDocs).1.toOption.map fun r =>
      (r.written, r.skipped)) = some (["docs/a/../b.txt".toList, "docs/new.txt".toList],
        ["docs/old.txt".toList]) := by decide +kernel
  have hdevices : ∀ p ∈ linkedDocs.entries, p.2 ≠ .device := by decide +kernel
  have htargets : threeDocuments.paths.map (Document.target "docs".toList ".txt".toList) =
      ["docs/a/../b.txt".toList, "docs/new.txt".toList, "docs/old.txt".toList] := by decide +kernel
  rcases hwrite : threeDocuments.write "docs".toList ".txt".toList linkedDocs with ⟨r, u⟩
  rw [hwrite] at hok
  cases r with
  | error refusal => cases hok
  | ok report =>
    simp only [Except.toOption, Option.map_some, Option.some.injEq, Prod.mk.injEq] at hok
    refine ⟨report, u, rfl, hok.1, hok.2, ?_⟩
    rw [← htargets]
    refine (write_again _ _ _ linkedDocs u report hwrite).2 fun l hl => ?_
    rcases Tree.mem_of_get? hl with ⟨_, hdir⟩ | hmem
    · cases hdir
    · exact absurd rfl (hdevices _ hmem)

/-- A tree that has a device and no link. -/
def deviceTree : Tree :=
  Tree.root
    |>.insert [] "dev".toList .dir
    |>.insert ["dev".toList] "full".toList .device

/-- A document without text. -/
def silentDocument : Store :=
  appendAll {} [⟨"/full".toList, "1".toList, {}⟩]

/-- It takes no link for a target to lead to a device: the path of the device will do.  The device takes a
document without text each time, and never becomes a file that is skipped. -/
theorem write_again_writes_device :
    (∀ l text, deviceTree.get? l ≠ some (.link text)) ∧
      ∃ u, silentDocument.write "/dev".toList [] deviceTree =
          (.ok { written := ["/dev/full".toList], skipped := [] }, u) ∧
        silentDocument.write "/dev".toList [] u =
          (.ok { written := ["/dev/full".toList], skipped := [] }, u) := by
  have hentries : deviceTree.entries =
      [(["dev".toList], .dir), (["full".toList, "dev".toList], .device)] := by decide +kernel
  have hwrite : silentDocument.write "/dev".toList [] deviceTree =
      (.ok { written := ["/dev/full".toList], skipped := [] }, deviceTree) := rfl
  refine ⟨fun l text hl => ?_, deviceTree, hwrite, hwrite⟩
  rcases Tree.mem_of_get? hl with ⟨_, hdir⟩ | hmem
  · cases hdir
  · rw [hentries] at hmem
    simp at hmem

end Store

end Docblocks
