/-
# Docblocks.Proofs.Store.KeyOrder — the order of keys and paths.

Keys and paths are compared by their bytes, and every list of them that the library sorts is sorted that
way.  The bytes may be forgotten: the comparison is that of the characters (`Text.order_eq_scalarOrder`), a
total order in which a text stands before all its continuations.  A list of keys has one ascending
arrangement (`Text.eq_sort_iff`), so it does not matter either how it is sorted; and the paths and chunks of
a store come out as if nothing but characters had ever been compared.
-/
import Docblocks.Proofs.Store.History
import Mathlib.Data.List.Dedup

namespace Docblocks

/-- Sorting texts gives the one arrangement of them that ascends. -/
theorem Text.eq_sort_iff {keys ks : List Text} :
    ks = Text.sort keys ↔ ks.Perm keys ∧ ks.Pairwise fun a b => Text.order a b ≠ .gt := by
  have hsort : IsStableSort id keys (Text.sort keys) := isStableSort_sortBy id keys
  constructor
  · rintro rfl
    exact ⟨hsort.perm, hsort.ascending⟩
  · rintro ⟨hperm, hascending⟩
    apply List.Perm.eq_of_pairwise _ hascending hsort.ascending (hperm.trans hsort.perm.symm)
    intro a b _ _ hab hba
    rw [Ne, Text.order_eq_gt_iff, not_lt] at hab hba
    exact le_antisymm hab hba

/-- Sorts by a key whose characters are compared; elements with equal keys keep their order. -/
def sortByScalars {α : Type} (key : α → Text) (xs : List α) : List α :=
  xs.mergeSort fun a b => Text.scalarOrder (key a) (key b) != .gt

theorem sortBy_eq_sortByScalars {α : Type} (key : α → Text) (xs : List α) :
    sortBy key xs = sortByScalars key xs := by
  have hkey : byKey key = fun a b => Text.scalarOrder (key a) (key b) != .gt := by
    funext a b
    rw [byKey, Text.le, Text.order_eq_scalarOrder]
  rw [sortBy, hkey, sortByScalars]

/-- **The order of keys and paths.** Comparing the bytes of two texts gives what comparing their characters
gives.  It is a total order: turning a comparison round reverses it, it is transitive, and only equal texts
compare as equal; and a text stands before all that continue it.  Sorting gives the one ascending
arrangement.  So the paths of a store ascend by their characters, and the chunks of each path are those of
its fragments in the stable order of the characters of their keys. -/
theorem Store.order_by_scalars :
    (∀ a b : Text, Text.order a b = Text.scalarOrder a b) ∧
    Std.TransCmp Text.order ∧ Std.LawfulEqCmp Text.order ∧
    (∀ (a : Text) (c : Char) (s : Text), Text.order a (a ++ c :: s) = .lt) ∧
    (∀ keys ks : List Text,
      ks = Text.sort keys ↔ ks.Perm keys ∧ ks.Pairwise fun a b => Text.order a b ≠ .gt) ∧
    (∀ keys : List Text, Text.sort keys = sortByScalars id keys) ∧
    ∀ additions : List Addition,
      (addAll {} additions).paths =
        sortByScalars id ((arrivals additions).map Fragment.path).dedup ∧
      ∀ path, (addAll {} additions).chunks path =
        (sortByScalars Fragment.order ((arrivals additions).filter fun f => f.path = path)).map
          Fragment.chunk := by
  refine ⟨Text.order_eq_scalarOrder, inferInstance, inferInstance, Text.order_append_cons,
    fun _ _ => Text.eq_sort_iff, sortBy_eq_sortByScalars id, fun additions => ⟨?_, fun path => ?_⟩⟩
  · -- Both sides hold the paths that arrived, each once, and ascend.
    have hpaths := (ordered_addAll additions).paths
    rw [← sortBy_eq_sortByScalars]
    refine Text.eq_sort_iff.2 ⟨?_, hpaths.imp fun hlt => by rw [Text.order_of_lt hlt]; decide⟩
    apply (List.perm_ext_iff_of_nodup hpaths.nodup (List.nodup_dedup _)).2
    intro path
    rw [List.mem_dedup, List.mem_map]
    exact mem_paths_addAll
  · rw [addAll_eq, chunks_appendAll, sortBy_eq_sortByScalars]

-- By UTF-16 units the second text would come first.
example : Text.order ['a', '\uFFFD'] ['a', '😀'] = .lt := by decide +kernel

end Docblocks
