/-
# Docblocks.Proofs.Store.History — what a store keeps of the additions it was built by.

A store is built by additions, each of one fragment or of all fragments of a source.  Only the fragments
that arrived count, and what can be read is a sort of them: the paths ascend, and the chunks of a path
are those of its fragments in a stable order of the order keys (`addAll_stable`).  The order of arrival
therefore shows only among fragments that share both path and order key.  Additions that share no such
pair may come in any order (`addAll_alike`): the same paths, the same chunks, and the same files and
report when the store is written.
-/
import Docblocks.Proofs.Store
import Docblocks.Writing
import Mathlib.Data.List.Sort

namespace Docblocks

/-! ## Stable orders -/

section Sorting

variable {α : Type} (key : α → Text)

/-- `ys` is `xs` in a stable order of a key: nothing is lost or doubled, the keys ascend, and elements
with one key keep their order. -/
structure IsStableSort (xs ys : List α) : Prop where
  perm : ys.Perm xs
  ascending : ys.Pairwise fun a b => Text.order (key a) (key b) ≠ .gt
  stable : ∀ k, (ys.filter fun a => key a = k) = xs.filter fun a => key a = k

theorem isStableSort_sortBy (xs : List α) : IsStableSort key xs (sortBy key xs) := by
  refine ⟨List.mergeSort_perm xs _, ?_, fun k => filter_sortBy key xs k⟩
  apply (pairwise_sortBy key xs).imp
  intro a b hab
  rw [Ne, Text.order_eq_gt_iff]
  exact not_lt.2 hab

/-- A sort by key depends only on the elements under each key. -/
theorem sortBy_congr {xs ys : List α}
    (h : ∀ k, (xs.filter fun a => key a = k) = ys.filter fun a => key a = k) :
    sortBy key xs = sortBy key ys := by
  apply eq_of_filter_eq key (pairwise_sortBy key xs) (pairwise_sortBy key ys)
  intro k
  rw [filter_sortBy, filter_sortBy, h]

end Sorting

/-! ## Entries in no particular order -/

namespace Keyed

variable {α : Type} {m entries : Keyed α}

theorem get?_eq_some_iff (hm : m.keys.Nodup) {key : Text} {a : α} :
    m.get? key = some a ↔ (key, a) ∈ m := by
  induction m with
  | nil => simp [get?]
  | cons p m ih =>
    obtain ⟨key', a'⟩ := p
    rw [keys_cons, List.nodup_cons] at hm
    rw [get?, List.mem_cons, Prod.mk.injEq]
    by_cases hkey : key' = key
    · -- The key stands first and nowhere else.
      have hnot : (key, a) ∉ m := by
        intro hmem
        apply hm.1
        rw [hkey]
        exact List.mem_map_of_mem hmem
      rw [if_pos hkey, Option.some.injEq, or_iff_left hnot]
      exact ⟨fun h => ⟨hkey.symm, h.symm⟩, fun h => h.2.symm⟩
    · rw [if_neg hkey, ih hm.2, or_iff_right]
      exact fun h => hkey h.1.symm

theorem Ascending.nodup (h : Ascending m) : m.keys.Nodup :=
  List.Pairwise.nodup h

/-- Where no key stands twice, a look-up does not depend on the order of the entries. -/
theorem get?_of_perm (hm : m.keys.Nodup) (hperm : entries.Perm m) (key : Text) :
    entries.get? key = m.get? key := by
  have hentries : entries.keys.Nodup := (hperm.map Prod.fst).nodup_iff.2 hm
  apply Option.ext
  intro a
  rw [get?_eq_some_iff hentries, get?_eq_some_iff hm, hperm.mem_iff]

theorem sort_keys (h : Ascending m) (hperm : entries.Perm m) : Text.sort entries.keys = m.keys := by
  have hsorted : (Text.sort entries.keys).Pairwise (· ≤ ·) := pairwise_sortBy id entries.keys
  have hkeys : m.keys.Pairwise (· ≤ ·) := List.Pairwise.imp le_of_lt h
  apply List.Perm.eq_of_pairwise (fun a b _ _ => le_antisymm) hsorted hkeys
  exact (List.mergeSort_perm _ _).trans (hperm.map Prod.fst)

/-- The elements of entries in no particular order: the keys are sorted, and then each brings its
elements. -/
def gather (entries : Keyed (List α)) : List α :=
  (Text.sort entries.keys).flatMap fun key => (entries.get? key).getD []

/-- Whatever the order of the entries, they are gathered in the order of their keys. -/
theorem gather_of_perm {m entries : Keyed (List α)} (h : Ascending m) (hperm : entries.Perm m) :
    gather entries = m.values.flatten := by
  unfold gather
  rw [sort_keys h hperm, keys, values, List.flatMap_map, ← List.flatMap_def]
  apply List.flatMap_congr
  intro p hp
  have hp' : m.get? p.1 = some p.2 := (get?_eq_some_iff h.nodup).2 hp
  rw [get?_of_perm h.nodup hperm, hp', Option.getD_some]

end Keyed

/-! ## Additions -/

/-- One addition to a store. -/
inductive Addition
  /-- A fragment by itself. -/
  | fragment (f : Fragment)
  /-- All blocks of a source text. -/
  | source (m : Markers) (text : Text)

/-- The fragments that an addition brings. -/
def Addition.fragments : Addition → List Fragment
  | .fragment f => [f]
  | .source m text => Block.parse m text

namespace Store

/-- A store after one more addition. -/
def add (s : Store) : Addition → Store
  | .fragment f => s.append f
  | .source m text => s.absorb m text

/-- A store after additions, one after the other. -/
def addAll (s : Store) (additions : List Addition) : Store :=
  additions.foldl add s

/-- All fragments that additions bring, in the order of arrival. -/
def arrivals (additions : List Addition) : List Fragment :=
  additions.flatMap Addition.fragments

theorem arrivals_cons (a : Addition) (additions : List Addition) :
    arrivals (a :: additions) = a.fragments ++ arrivals additions :=
  List.flatMap_cons

theorem add_eq (s : Store) (a : Addition) : s.add a = s.appendAll a.fragments := by
  cases a <;> rfl

/-- Nothing but the arrivals counts. -/
theorem addAll_eq (s : Store) (additions : List Addition) :
    s.addAll additions = s.appendAll (arrivals additions) := by
  induction additions generalizing s with
  | nil => rfl
  | cons a additions ih =>
    show (s.add a).addAll additions = s.appendAll (arrivals (a :: additions))
    rw [ih, add_eq, arrivals_cons]
    exact List.foldl_append.symm

theorem mem_paths_addAll {additions : List Addition} {path : Text} :
    path ∈ (addAll {} additions).paths ↔ ∃ f ∈ arrivals additions, f.path = path := by
  rw [addAll_eq, mem_paths_appendAll]
  exact or_iff_right (by simp [paths, Keyed.keys])

theorem ordered_addAll (additions : List Addition) : Ordered (addAll {} additions) := by
  rw [addAll_eq]
  exact ordered_empty.appendAll _

/-- A store is a stable sort of what was put in.  The paths are those that arrived, ascending and each
once.  The chunks of a path are those of its fragments in the stable order of their order keys; they
come out the same when the entries under the path stand in any other order and are sorted on reading. -/
theorem addAll_stable (additions : List Addition) :
    (addAll {} additions).paths.Pairwise (fun p q => Text.order p q = .lt) ∧
      (∀ path, path ∈ (addAll {} additions).paths ↔ ∃ f ∈ arrivals additions, f.path = path) ∧
      ∀ path, (∃ fs, IsStableSort Fragment.order
          ((arrivals additions).filter fun f => f.path = path) fs ∧
          (addAll {} additions).chunks path = fs.map Fragment.chunk) ∧
        (path ∉ (addAll {} additions).paths → (addAll {} additions).chunks path = []) ∧
        ∀ entries, entries.Perm (((addAll {} additions).documents.get? path).getD []) →
          Keyed.gather entries = (addAll {} additions).chunks path := by
  have hordered := ordered_addAll additions
  refine ⟨?_, fun path => mem_paths_addAll, fun path => ⟨?_, ?_, ?_⟩⟩
  · apply List.Pairwise.imp _ hordered.paths
    intro p q hpq
    exact Text.order_of_lt hpq
  · refine ⟨_, isStableSort_sortBy Fragment.order _, ?_⟩
    rw [addAll_eq, chunks_appendAll]
  · intro hpath
    have hnone := Keyed.get?_eq_none_iff.2 hpath
    rw [chunks, hnone]
    rfl
  · intro entries hperm
    exact Keyed.gather_of_perm (hordered.orders path) hperm

/-! ## The order of arrival -/

/-- The fragments with one path and one order key, in their order. -/
def sharing (path order : Text) (fs : List Fragment) : List Fragment :=
  fs.filter fun f => f.path = path ∧ f.order = order

/-- No fragment of the one list shares both path and order key with one of the other. -/
def Apart (fs gs : List Fragment) : Prop :=
  ∀ f ∈ fs, ∀ g ∈ gs, ¬ (f.path = g.path ∧ f.order = g.order)

/-- Two stores that cannot be told apart: the same can be read from them, and writing them anywhere ends
with the same report or refusal and leaves the same tree. -/
structure Alike (s s' : Store) : Prop where
  paths : s.paths = s'.paths
  chunks : ∀ path, s.chunks path = s'.chunks path
  write : ∀ root extension t, s.write root extension t = s'.write root extension t

theorem alike_of_chunks {s s' : Store} (hpaths : s.paths = s'.paths)
    (hchunks : ∀ path, s.chunks path = s'.chunks path) : Alike s s' := by
  refine ⟨hpaths, hchunks, ?_⟩
  intro root extension t
  have houtputs : s.outputs root extension = s'.outputs root extension := by
    unfold outputs text
    rw [hpaths]
    simp only [hchunks]
  rw [Store.write, Store.write, houtputs]

theorem Apart.symm {fs gs : List Fragment} (h : Apart fs gs) : Apart gs fs := by
  intro g hg f hf hsame
  exact h f hf g hg ⟨hsame.1.symm, hsame.2.symm⟩

theorem sharing_append (path order : Text) (fs gs : List Fragment) :
    sharing path order (fs ++ gs) = sharing path order fs ++ sharing path order gs :=
  List.filter_append fs gs

/-- Of two lists that are apart, at most one has fragments with a given path and order key. -/
theorem Apart.sharing_comm {fs gs : List Fragment} (h : Apart fs gs) (path order : Text) :
    sharing path order fs ++ sharing path order gs =
      sharing path order gs ++ sharing path order fs := by
  by_cases hfs : sharing path order fs = []
  · rw [hfs, List.nil_append, List.append_nil]
  · obtain ⟨f, hf⟩ := List.exists_mem_of_ne_nil _ hfs
    have hgs : sharing path order gs = [] := by
      apply List.filter_eq_nil_iff.2
      intro g hg hshares
      obtain ⟨hmem, hf'⟩ := List.mem_filter.1 hf
      simp only [decide_eq_true_eq] at hf' hshares
      exact h f hmem g hg ⟨hf'.1.trans hshares.1.symm, hf'.2.trans hshares.2.symm⟩
    rw [hgs, List.nil_append, List.append_nil]

/-- Additions that are apart can be put in another order: under each path and order key the same
fragments arrive in the same order. -/
theorem sharing_arrivals_of_perm {as bs : List Addition} (hperm : as.Perm bs)
    (hapart : as.Pairwise fun a b => Apart a.fragments b.fragments) (path order : Text) :
    sharing path order (arrivals as) = sharing path order (arrivals bs) := by
  induction hperm with
  | nil => rfl
  | cons a _ ih =>
    rw [arrivals_cons, arrivals_cons, sharing_append, sharing_append,
      ih (List.pairwise_cons.1 hapart).2]
  | swap a b as =>
    have hba : Apart b.fragments a.fragments :=
      (List.pairwise_cons.1 hapart).1 a List.mem_cons_self
    simp only [arrivals_cons, sharing_append, ← List.append_assoc]
    rw [hba.sharing_comm]
  | trans hab _ ih ih' =>
    rw [ih hapart]
    apply ih'
    exact (hab.pairwise_iff Apart.symm).1 hapart

/-- What can be read depends only on the fragments under each path and order key. -/
theorem alike_of_sharing {as bs : List Addition}
    (h : ∀ path order, sharing path order (arrivals as) = sharing path order (arrivals bs)) :
    Alike (addAll {} as) (addAll {} bs) := by
  apply alike_of_chunks
  · -- Both lists of paths ascend, so it is enough that they hold the same paths.
    apply List.Pairwise.eq_of_mem_iff (ordered_addAll as).paths (ordered_addAll bs).paths
    intro path
    have hmem : ∀ {as bs : List Addition},
        (∀ path order, sharing path order (arrivals as) = sharing path order (arrivals bs)) →
        (∃ f ∈ arrivals as, f.path = path) → ∃ f ∈ arrivals bs, f.path = path := by
      rintro as bs hsharing ⟨f, hf, rfl⟩
      have hshares : f ∈ sharing f.path f.order (arrivals as) := by simp [sharing, hf]
      rw [hsharing] at hshares
      exact ⟨f, (List.mem_filter.1 hshares).1, rfl⟩
    exact mem_paths_addAll.trans
      (Iff.trans ⟨hmem h, hmem fun path order => (h path order).symm⟩ mem_paths_addAll.symm)
  · intro path
    rw [addAll_eq, addAll_eq, chunks_appendAll, chunks_appendAll, sortBy_congr]
    intro order
    have horder := h path order
    simpa [sharing, List.filter_filter, Bool.and_comm] using horder

/-- The order of independent sources does not matter: sources no two of which bring fragments with the
same path and order key give stores that cannot be told apart, in whatever order they come.  More
generally this holds for any additions that bring, under each path and order key, the same fragments in
the same order. -/
theorem addAll_alike :
    (∀ (m : Markers) (xs ys : List Text), xs.Perm ys →
      (xs.Pairwise fun x y => Apart (Block.parse m x) (Block.parse m y)) →
      Alike (addAll {} (xs.map (.source m))) (addAll {} (ys.map (.source m)))) ∧
    ∀ as bs : List Addition,
      (∀ path order, sharing path order (arrivals as) = sharing path order (arrivals bs)) →
      Alike (addAll {} as) (addAll {} bs) := by
  refine ⟨?_, fun as bs => alike_of_sharing⟩
  intro m xs ys hperm hapart
  apply alike_of_sharing
  apply sharing_arrivals_of_perm (hperm.map _)
  exact List.pairwise_map.2 hapart

/-- Three sources that write to one document, the keys in no order, and to another one. -/
def scatteredSources : List Text :=
  ["/** @scratch /a/2\n * two\n */\n/** @scratch /b/1\n * b\n */\n/** @scratch /a/2\n * 2\n */".toList,
    "/** @scratch /a/10\n * ten\n */".toList, "/** @scratch /a/1\n * one\n */".toList]

/-- Read backwards, the sources give the same store: `1`, `10`, and twice `2` in their own order. -/
theorem addAll_alike_scatteredSources :
    (addAll {} (scatteredSources.map (.source {}))).chunks "/a".toList =
        [⟨["one\n".toList]⟩, ⟨["ten\n".toList]⟩, ⟨["two\n".toList]⟩, ⟨["2\n".toList]⟩] ∧
      Alike (addAll {} (scatteredSources.map (.source {})))
        (addAll {} (scatteredSources.reverse.map (.source {}))) := by
  refine ⟨by decide +kernel, addAll_alike.1 {} _ _ (List.reverse_perm _).symm ?_⟩
  unfold Apart
  decide +kernel

end Store

end Docblocks
