/-
# Docblocks.Proofs.Tree.Linkless — trees without links.

Without links the text of a path says where it ends: a name goes down, two dots go up, and dots and
empty pieces go nowhere.  `landing` is the location that is computed so, without looking at any tree, and
`landing_of_locate` says that every walk along the path ends there, whatever it is for and whatever the
tree holds.
-/
import Docblocks.Proofs.Tree.Directories

namespace Docblocks

/-- Where a step leads from a location when the name it enters is no link. -/
def Path.Step.move (l : Location) : Path.Step → Location
  | .name n => n :: l
  | .up => l.tail
  | .here => l
  | .slash => l

/-- A symbolic link. -/
def Entry.isLink : Entry → Bool
  | .link _ => true
  | .dir => false
  | .file _ => false
  | .device => false

namespace Tree

/-- A tree without links. -/
def Linkless (t : Tree) : Prop :=
  ∀ p ∈ t.entries, p.2.isLink = false

variable {t u : Tree}

theorem linkless_iff : t.Linkless ↔ ∀ l text, t.get? l ≠ some (.link text) := by
  constructor
  · intro h l text hl
    rcases mem_of_get? hl with ⟨_, hdir⟩ | hmem
    · cases hdir
    · have hlink := h _ hmem
      cases hlink
  · rintro h ⟨l, e⟩ hmem
    cases e with
    | link text => exact absurd (get?_of_mem hmem) (h l text)
    | dir => rfl
    | file content => rfl
    | device => rfl

theorem Linkless.adds_dirs (h : t.Linkless) {new : Location → Prop} (hadds : Adds t u (dirs new)) :
    u.Linkless := by
  rw [linkless_iff] at h ⊢
  intro l text hl
  rcases hadds.only l _ hl with hold | hdir
  · exact h l text hold
  · cases hdir.1

/-! ## Where a path lands -/

/-- The location of a place, taken or free. -/
def Place.location : Place → Location
  | .found l => l
  | .vacant dir n => n :: dir

/-- The location that a path is written for: where its steps lead over no link. -/
def landing (cwd : Location) (path : Text) : Location :=
  (Path.steps path).foldl Path.Step.move (base cwd path)

theorem foldl_move_of_isLast {aim : Aim} {rest : List Path.Step} (h : isLast aim rest = true)
    (l : Location) : rest.foldl Path.Step.move l = l := by
  simp only [isLast, Bool.or_eq_true, decide_eq_true_eq, Bool.and_eq_true] at h
  rcases h with rfl | ⟨_, rfl⟩ <;> rfl

theorem Route.location_eq_foldl {aim : Aim} {links : Nat} {l : Location} {steps : List Path.Step}
    {p : Place} (h : Route t aim links l steps p) (hlinks : t.Linkless) :
    p.location = steps.foldl Path.Step.move l := by
  induction h with
  | done => rfl
  | here _ ih => exact ih
  | slash _ ih => exact ih
  | up _ ih => exact ih
  | vacant _ _ hlast => exact (foldl_move_of_isLast hlast _).symm
  | stop _ _ _ hlast => exact (foldl_move_of_isLast hlast _).symm
  | enter _ _ _ ih => exact ih
  | follow _ hget => exact absurd hget (linkless_iff.1 hlinks _ _)

/-- Every walk along a path ends at its landing. -/
theorem landing_of_locate {aim : Aim} {path : Text} {p : Place} (h : t.locate aim path = .ok p)
    (hlinks : t.Linkless) : p.location = landing t.cwd path :=
  (locate_eq_ok_iff.1 h).2.location_eq_foldl hlinks

/-- A path for a file that ends at a free name ends in that name. -/
theorem Route.getLast?_of_vacant {links : Nat} {l : Location} {steps : List Path.Step} {p : Place}
    (h : Route t .file links l steps p) (hlinks : t.Linkless) {d : Location} {n : Text}
    (hp : p = .vacant d n) : steps.getLast? = some (.name n) := by
  induction h with
  | done => cases hp
  | here _ ih => rw [List.getLast?_cons, ih hp]; rfl
  | slash _ ih => rw [List.getLast?_cons, ih hp]; rfl
  | up _ ih => rw [List.getLast?_cons, ih hp]; rfl
  | vacant _ _ hlast =>
    cases hp
    rw [isLast_of_ne_directory (by simp)] at hlast
    rw [hlast]
    rfl
  | stop => cases hp
  | enter _ _ _ ih => rw [List.getLast?_cons, ih hp]; rfl
  | follow _ hget => exact absurd hget (linkless_iff.1 hlinks _ _)

end Tree

end Docblocks
