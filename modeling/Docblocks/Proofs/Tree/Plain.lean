/-
# Docblocks.Proofs.Tree.Plain — trees of directories and files alone.

In a tree without links the place where a path without two dots ends can be read off the path: its names
below the location it starts from.  `spot` is that location, and `location_of_locate` says that every
walk along the path ends there, at an entry or at a free name.  So two paths with different names never
meet (`isFile_of_adds`), and what is made above a path lies above its spot.
-/
import Docblocks.Proofs.Tree.Linkless

namespace Docblocks

namespace Path

/-! ## The names of a path -/

/-- The name that a step enters. -/
def Step.name? : Step → Option Text
  | .name n => some n
  | _ => none

/-- The names among steps. -/
def names (steps : List Step) : List Text :=
  steps.filterMap Step.name?

/-- The pieces of a path that are neither empty nor a dot. -/
def parts (path : Text) : List Text :=
  (Text.pieces '/' path).filter fun p => !isVoid p

theorem names_append (a b : List Step) : names (a ++ b) = names a ++ names b :=
  List.filterMap_append

/-- Without two dots the names of a path are its pieces that count. -/
theorem names_steps {path : Text} (hup : .up ∉ steps path) : names (steps path) = parts path := by
  rw [up_mem_steps] at hup
  obtain ⟨tail, htail, hsteps⟩ := steps_eq path
  have hnil : names tail = [] := by
    rcases htail with rfl | rfl <;> rfl
  rw [hsteps, names_append, hnil, List.append_nil, names, List.filterMap_filterMap, parts,
    ← List.filterMap_eq_filter]
  refine List.filterMap_congr fun p hp => ?_
  have hdots : p ≠ ['.', '.'] := fun h => hup (h ▸ hp)
  by_cases hempty : p = []
  · simp [hempty, step?, isVoid, Option.guard]
  · by_cases hdot : p = ['.']
    · simp [hdot, step?, isVoid, Step.name?, Option.guard]
    · simp [hempty, hdot, hdots, step?, isVoid, Step.name?, Option.guard]

/-- Without two dots steps go down by their names. -/
theorem foldl_move {steps : List Step} (hup : .up ∉ steps) (l : Location) :
    steps.foldl Step.move l = (names steps).reverse ++ l := by
  induction steps generalizing l with
  | nil => rfl
  | cons step rest ih =>
    have hrest : .up ∉ rest := fun h => hup (List.mem_cons_of_mem _ h)
    rw [List.foldl_cons, ih hrest]
    cases step with
    | here => rfl
    | slash => rfl
    | up => exact absurd List.mem_cons_self hup
    | name n =>
      show (names rest).reverse ++ n :: l = (n :: names rest).reverse ++ l
      rw [List.reverse_cons, List.append_assoc, List.singleton_append]

/-- A path without two dots has one name more than its parent. -/
theorem names_of_parent? {path parent : Text} (h : parent? path = some parent) (hne : parent ≠ [])
    (hup : .up ∉ steps path) : ∃ n, names (steps path) = names (steps parent) ++ [n] := by
  obtain ⟨_, j, x, tail, hx, htail, hsteps⟩ := steps_of_parent? h hne
  have hdots : names (List.replicate j .here) = [] := by
    simp [names, Step.name?]
  have hnil : names tail = [] := by
    rw [names, List.filterMap_eq_nil_iff]
    intro s hs
    rcases htail s hs with rfl | rfl <;> rfl
  rcases hx with rfl | ⟨n, rfl⟩
  · exact absurd (hsteps ▸ by simp) hup
  · refine ⟨n, ?_⟩
    rw [hsteps, names_append, names_append, hdots, List.nil_append]
    show names (steps parent) ++ n :: names tail = _
    rw [hnil]

end Path

/-- A directory or a regular file. -/
def Entry.isPlain : Entry → Bool
  | .dir => true
  | .file _ => true
  | .link _ => false
  | .device => false

namespace Tree

/-! ## Plain trees -/

/-- A tree without links and devices. -/
def Plain (t : Tree) : Prop :=
  ∀ p ∈ t.entries, p.2.isPlain = true

variable {t u : Tree}

theorem Plain.isPlain (h : t.Plain) {l : Location} {e : Entry} (hl : t.get? l = some e) :
    e.isPlain = true := by
  rcases mem_of_get? hl with ⟨_, rfl⟩ | hmem
  · rfl
  · exact h _ hmem

theorem Plain.linkless (h : t.Plain) : t.Linkless := by
  intro p hp
  have hplain := h p hp
  cases hentry : p.2 with
  | link text =>
    rw [hentry] at hplain
    cases hplain
  | dir => rfl
  | file content => rfl
  | device => rfl

theorem Plain.adds (h : t.Plain) {new : Location → Entry → Prop} (hadds : Adds t u new)
    (hnew : ∀ l e, new l e → e.isPlain = true) : u.Plain := by
  rintro ⟨l, e⟩ hmem
  rcases hadds.only l e (get?_of_mem hmem) with hl | hl
  · exact h.isPlain hl
  · exact hnew l e hl

/-! ## Where a path leads -/

/-- The location that the names of a path lead to. -/
def spot (cwd : Location) (path : Text) : Location :=
  (Path.names (Path.steps path)).reverse ++ base cwd path

theorem landing_eq_spot {path : Text} (hup : .up ∉ Path.steps path) (cwd : Location) :
    landing cwd path = spot cwd path :=
  Path.foldl_move hup _

/-- Every walk along a path without two dots ends at its spot. -/
theorem location_of_locate {aim : Aim} {path : Text} {p : Place} (h : t.locate aim path = .ok p)
    (hplain : t.Plain) (hup : .up ∉ Path.steps path) : p.location = spot t.cwd path :=
  (landing_of_locate h hplain.linkless).trans (landing_eq_spot hup t.cwd)

theorem spot_of_parent? {path parent : Text} (h : Path.parent? path = some parent)
    (hne : parent ≠ []) (hup : .up ∉ Path.steps path) (cwd : Location) :
    ∃ n, spot cwd path = n :: spot cwd parent := by
  obtain ⟨n, hnames⟩ := Path.names_of_parent? h hne hup
  have hbase : base cwd path = base cwd parent := by
    unfold base
    rw [(Path.steps_of_parent? h hne).1]
  refine ⟨n, ?_⟩
  rw [spot, hnames, hbase, List.reverse_append]
  rfl

/-- A walk without two dots to an entry is the same in a tree that holds an entry of its kind there: the
directories on the way are above it in both trees. -/
theorem Route.transfer {aim : Aim} {links : Nat} {l : Location} {steps : List Path.Step} {p : Place}
    (h : Route u aim links l steps p) (hlinks : u.Linkless) (hup : .up ∉ steps) {k : Location}
    {e e' : Entry} (hp : p = .found k) (hu : u.get? k = some e') (ht : t.get? k = some e)
    (hgrows : e.Grows e') : Route t aim links l steps p := by
  induction h with
  | done links l => exact .done links l
  | here _ ih => exact .here (ih (fun h => hup (List.mem_cons_of_mem _ h)) hp)
  | slash _ ih => exact .slash (ih (fun h => hup (List.mem_cons_of_mem _ h)) hp)
  | up => exact absurd List.mem_cons_self hup
  | vacant => cases hp
  | stop hpass hget hstop hlast =>
    cases hp
    rw [hu] at hget
    cases hget
    exact .stop hpass ht (hstop.of_grows hgrows) hlast
  | @enter links l n rest p hpass hget hrest ih =>
    have hup' : .up ∉ rest := fun h => hup (List.mem_cons_of_mem _ h)
    refine .enter hpass ?_ (ih hup' hp)
    have hk : k = (Path.names rest).reverse ++ n :: l := by
      have := hrest.location_eq_foldl hlinks
      rw [hp, Path.foldl_move hup'] at this
      exact this
    by_cases hend : n :: l = k
    · rw [hend, hu] at hget
      cases hget
      rw [hend, ht, Entry.Grows.eq_dir hgrows]
    · exact get?_of_suffix (hk ▸ List.suffix_append _ _) hend ht
  | follow _ hget => exact absurd hget (linkless_iff.1 hlinks _ _)

/-- A path without two dots that leads to something old led to it before. -/
theorem locate_of_old (hgrows : Grows t u) (hlinks : u.Linkless) {aim : Aim} {path : Text}
    (hup : .up ∉ Path.steps path) {k : Location} {e : Entry}
    (hloc : u.locate aim path = .ok (.found k)) (hk : t.get? k = some e) :
    t.locate aim path = .ok (.found k) := by
  obtain ⟨e', hk', hee'⟩ := hgrows.entries k e hk
  obtain ⟨hwalk, hroute⟩ := locate_eq_ok_iff.1 hloc
  rw [hgrows.cwd] at hroute
  exact locate_eq_ok_iff.2 ⟨hwalk, hroute.transfer hlinks hup rfl hk' hk hee'⟩

/-! ## Additions elsewhere -/

/-- A path leads to a file after additions exactly when it did before, if no file was added at its
spot. -/
theorem isFile_of_adds {new : Location → Entry → Prop} (hadds : Adds t u new) (hplain : u.Plain)
    {path : Text} (hup : .up ∉ Path.steps path)
    (hnew : ∀ content, ¬ new (spot t.cwd path) (.file content)) : u.isFile path = t.isFile path := by
  rw [Bool.eq_iff_iff, isFile_iff, isFile_iff]
  constructor
  · rintro ⟨k, content, hloc, hget⟩
    have hk : k = spot t.cwd path := by
      have := location_of_locate hloc hplain hup
      rw [hadds.cwd] at this
      exact this
    -- The file was there before, and the same walk led to it; or it is new, which `hnew` excludes.
    rcases hadds.only k _ hget with ht | hn
    · exact ⟨k, content, locate_of_old hadds.grows hplain.linkless hup hloc ht, ht⟩
    · rw [hk] at hn
      exact absurd hn (hnew content)
  · rintro ⟨k, content, hloc, hget⟩
    exact ⟨k, content, hadds.grows.locate hloc, hadds.kept k _ hget⟩

/-- Making a directory in a plain tree makes directories at the spot of its path and above. -/
theorem Making.adds_above {path : Text} {r : Except Cause Unit} (h : Making t path r u)
    (hplain : t.Plain) (hup : .up ∉ Path.steps path) :
    Adds t u (dirs fun l => l <:+ spot t.cwd path) := by
  -- The paths that are tried are this one and those above it.
  refine h.adds
    (fun p => p = [] ∨ (.up ∉ Path.steps p ∧ spot t.cwd p <:+ spot t.cwd path)) ?_ ?_
    (Adds.refl t _) (Or.inr ⟨hup, List.suffix_rfl⟩)
  · intro p hp
    by_cases hne : above p = []
    · exact Or.inl hne
    · have hparent := parent?_of_above hne
      rcases hp with rfl | ⟨hupp, hspot⟩
      · cases hparent
      · obtain ⟨n, hn⟩ := spot_of_parent? hparent hne hupp t.cwd
        refine Or.inr ⟨up_not_mem_parent hparent hne hupp, ?_⟩
        exact (hn ▸ List.suffix_cons n _ : spot t.cwd (above p) <:+ spot t.cwd p).trans hspot
  · intro v p d n hadds hp hloc
    rcases hp with rfl | ⟨hupp, hspot⟩
    · exact absurd rfl (locate_eq_ok_iff.1 hloc).1.2.1
    · have hplain' : v.Plain := hplain.adds hadds fun l e hnew => by rw [hnew.1]; rfl
      have := location_of_locate hloc hplain' hupp
      rw [hadds.cwd] at this
      rw [show n :: d = spot t.cwd p from this]
      exact hspot

end Tree

end Docblocks
