/-
# Docblocks.Tree.Basic — a file tree as a map from locations to entries.

A location is the list of names from an entry up to the root, the innermost name first, so that the
child `n` of `l` is `n :: l` and the parent is the tail.  A tree holds at most one entry per location,
and every entry stands in a directory.  Both facts are part of the type: whatever an operation does, a
name is looked up in a directory and found at most once.  The root is a directory and has no entry of
its own.
-/
import Docblocks.Text.Utf8

namespace Docblocks

/-- The names from an entry up to the root, innermost first; the root is `[]`. -/
abbrev Location := List Text

/-- What stands at a location. -/
inductive Entry
  /-- A directory. -/
  | dir
  /-- A regular file. -/
  | file (content : List UInt8)
  /-- A symbolic link, with the text it points to. -/
  | link (target : Text)
  /-- A device that can be opened but has room for no byte. -/
  | device
  deriving DecidableEq, Repr

/-- A file tree and the working directory from which relative paths start. -/
structure Tree where
  entries : List (Location × Entry)
  cwd : Location
  /-- No location has two entries. -/
  distinct : (entries.map Prod.fst).Nodup
  /-- The root has no entry. -/
  rooted : ∀ p ∈ entries, p.1 ≠ []
  /-- Every entry stands in a directory. -/
  closed : ∀ p ∈ entries, p.1.tail = [] ∨ (p.1.tail, Entry.dir) ∈ entries
  /-- The working directory is one. -/
  working : cwd = [] ∨ (cwd, Entry.dir) ∈ entries

namespace Tree

/-! ## Looking -/

/-- The entry at a location. -/
def get? (t : Tree) : Location → Option Entry
  | [] => some .dir
  | l => t.entries.lookup l

/-- Whether a location holds a directory. -/
def hasDir (t : Tree) (l : Location) : Bool :=
  t.get? l = some .dir

/-- The names in a directory with their entries, in no particular order. -/
def children (t : Tree) (l : Location) : List (Text × Entry) :=
  t.entries.filterMap fun p =>
    match p.1 with
    | [] => none
    | n :: parent => if parent = l then some (n, p.2) else none

@[simp]
theorem get?_root (t : Tree) : t.get? [] = some .dir := rfl

theorem mem_of_get? {t : Tree} {l : Location} {e : Entry} (h : t.get? l = some e) :
    (l = [] ∧ e = .dir) ∨ (l, e) ∈ t.entries := by
  cases l with
  | nil => exact Or.inl ⟨rfl, (Option.some.inj h).symm⟩
  | cons n l =>
    obtain ⟨before, after, h, _⟩ := List.lookup_eq_some_iff.1 h
    exact Or.inr (by rw [h]; simp)

theorem not_mem_of_get?_eq_none {t : Tree} {l : Location} (h : t.get? l = none) :
    l ∉ t.entries.map Prod.fst := by
  intro hl
  obtain ⟨p, hp, rfl⟩ := List.mem_map.1 hl
  cases hl : p.1 with
  | nil => exact t.rooted p hp hl
  | cons n l =>
    rw [hl] at h
    have := List.lookup_eq_none_iff.1 h p hp
    simp [hl] at this

/-! ## Changing -/

/-- The tree that holds the root alone. -/
def root : Tree where
  entries := []
  cwd := []
  distinct := List.nodup_nil
  rooted := by simp
  closed := by simp
  working := Or.inl rfl

/-- Adds an entry `n` to the directory `l`.  A tree without that directory, or with something at the
new place, stays as it is. -/
def insert (t : Tree) (l : Location) (n : Text) (e : Entry) : Tree :=
  if h : t.get? l = some .dir ∧ t.get? (n :: l) = none then
    { entries := t.entries ++ [(n :: l, e)]
      cwd := t.cwd
      distinct := by
        rw [List.map_append, List.nodup_append]
        refine ⟨t.distinct, by simp, ?_⟩
        intro a ha b hb hab
        simp only [List.map_cons, List.map_nil, List.mem_singleton] at hb
        exact not_mem_of_get?_eq_none h.2 (by rw [← hb, ← hab]; exact ha)
      rooted := by
        intro p hp
        rcases List.mem_append.1 hp with hp | hp
        · exact t.rooted p hp
        · simp only [List.mem_singleton] at hp
          simp [hp]
      closed := by
        intro p hp
        rcases List.mem_append.1 hp with hp | hp
        · exact (t.closed p hp).imp_right (List.mem_append_left _)
        · simp only [List.mem_singleton] at hp
          subst hp
          rcases mem_of_get? h.1 with ⟨hl, _⟩ | hl
          · exact Or.inl hl
          · exact Or.inr (List.mem_append_left _ hl)
      working := t.working.imp_right (List.mem_append_left _) }
  else t

/-- An entry with `content` in place of a file's own; anything but a file stays as it is. -/
def refill (content : List UInt8) : Entry → Entry
  | .file _ => .file content
  | e => e

/-- Puts new content into the file at a location.  Where no file is, the tree stays as it is. -/
def setContent (t : Tree) (l : Location) (content : List UInt8) : Tree :=
  let change := fun p : Location × Entry => if p.1 = l then (p.1, refill content p.2) else p
  have fst_change : ∀ p, (change p).1 = p.1 := by
    intro p
    by_cases hp : p.1 = l <;> simp [change, hp]
  have change_dir : ∀ k, change (k, Entry.dir) = (k, Entry.dir) := by
    intro k
    by_cases hk : k = l <;> simp [change, hk, refill]
  have dir_mem : ∀ k, (k, Entry.dir) ∈ t.entries → (k, Entry.dir) ∈ t.entries.map change := by
    intro k hk
    exact List.mem_map.2 ⟨_, hk, change_dir k⟩
  { entries := t.entries.map change
    cwd := t.cwd
    distinct := by
      have : (t.entries.map change).map Prod.fst = t.entries.map Prod.fst := by
        rw [List.map_map]
        exact List.map_congr_left fun p _ => fst_change p
      rw [this]
      exact t.distinct
    rooted := by
      intro p hp
      obtain ⟨q, hq, rfl⟩ := List.mem_map.1 hp
      rw [fst_change]
      exact t.rooted q hq
    closed := by
      intro p hp
      obtain ⟨q, hq, rfl⟩ := List.mem_map.1 hp
      rw [fst_change]
      exact (t.closed q hq).imp_right (dir_mem _)
    working := t.working.imp_right (dir_mem _) }

/-- Removes a location and all below it.  The working directory and what is above it are kept. -/
def erase (t : Tree) (l : Location) : Tree :=
  if h : l.isSuffixOf t.cwd = true then t
  else
    have kept : ∀ k e, (k, e) ∈ t.entries → ¬ l <:+ k →
        (k, e) ∈ t.entries.filter (fun p => !l.isSuffixOf p.1) := by
      intro k e hk hl
      refine List.mem_filter.2 ⟨hk, ?_⟩
      simpa [← List.isSuffixOf_iff_suffix] using hl
    { entries := t.entries.filter fun p => !l.isSuffixOf p.1
      cwd := t.cwd
      distinct := List.Nodup.sublist (List.Sublist.map _ List.filter_sublist) t.distinct
      rooted := fun p hp => t.rooted p (List.mem_filter.1 hp).1
      closed := by
        intro p hp
        obtain ⟨hp, hl⟩ := List.mem_filter.1 hp
        refine (t.closed p hp).imp_right fun hd => kept _ _ hd ?_
        intro hs
        have hp' : l <:+ p.1 := hs.trans (List.tail_suffix _)
        rw [List.isSuffixOf_iff_suffix.2 hp'] at hl
        cases hl
      working := by
        refine t.working.imp_right fun hd => kept _ _ hd ?_
        rw [← List.isSuffixOf_iff_suffix]
        exact h }

/-- The same tree with another working directory, if that is a directory. -/
def enter (t : Tree) (l : Location) : Tree :=
  if h : t.get? l = some .dir then
    { t with
      cwd := l
      working := (mem_of_get? h).imp And.left id }
  else t

end Tree

end Docblocks
