/-
# Docblocks.Proofs.Document — which documents share a target.

A target is the output root, the path, and the extension, one behind the other; a path without a slash gets
one in front (`target_eq`).  Nothing else is done to the path, so it can be read off its target again but
for that slash: two paths share a target exactly when the one has no slash and the other is the same path
behind a slash.
-/
import Docblocks.Writing

namespace Docblocks.Document

/-- What a target has behind the output root. -/
def behindRoot (extension path : Text) : Text :=
  (if '/' ∈ path then path else '/' :: path) ++ extension

/-- The two parts of a path with a slash between them are the path, or the path behind a slash. -/
theorem join_split (path : Text) :
    (split path).1 ++ '/' :: (split path).2 = if '/' ∈ path then path else '/' :: path := by
  unfold split
  cases hcut : Text.cutLast? '/' path with
  | none => rw [if_neg (Text.cutLast?_eq_none_iff.1 hcut)]; rfl
  | some parts =>
    have hpath := Text.eq_of_cutLast? hcut
    have hslash : '/' ∈ path := by rw [hpath]; simp
    rw [if_pos hslash]
    exact hpath.symm

theorem target_eq (root extension path : Text) :
    target root extension path = root ++ behindRoot extension path := by
  rw [behindRoot, ← join_split, target]
  simp

theorem behindRoot_ne_nil (extension path : Text) : behindRoot extension path ≠ [] := by
  unfold behindRoot
  by_cases hslash : '/' ∈ path
  · rw [if_pos hslash]
    intro hnil
    rw [(List.append_eq_nil_iff.1 hnil).1] at hslash
    cases hslash
  · rw [if_neg hslash]
    simp

/-- A leaf holds no slash. -/
theorem not_mem_leaf (path : Text) : '/' ∉ (split path).2 := by
  unfold split
  cases hcut : Text.cutLast? '/' path with
  | none => exact Text.cutLast?_eq_none_iff.1 hcut
  | some parts => exact Text.not_mem_of_cutLast? hcut

theorem behindRoot_eq_behindRoot_iff {extension p q : Text} :
    behindRoot extension p = behindRoot extension q ↔
      p = q ∨ ('/' ∉ p ∧ q = '/' :: p) ∨ ('/' ∉ q ∧ p = '/' :: q) := by
  unfold behindRoot
  rw [List.append_left_inj]
  by_cases hp : '/' ∈ p <;> by_cases hq : '/' ∈ q
  · simp [hp, hq]
  · -- The slash in front of `q` is one that `p` has itself.
    have hne : p ≠ q := fun h => hq (h ▸ hp)
    simp [hp, hq, hne]
  · have hne : p ≠ q := fun h => hp (h ▸ hq)
    simp [hp, hq, hne, eq_comm]
  · have hp' : p ≠ '/' :: q := fun h => hp (h ▸ List.mem_cons_self)
    have hq' : q ≠ '/' :: p := fun h => hq (h ▸ List.mem_cons_self)
    simp [hp, hq, hp', hq']

/-- **Shared targets.** Under any root and extension, two paths have the same target exactly when they are
equal, or the one holds no slash and the other is that path behind a slash.  The leaf of a path holds no
slash, and the target is the path between root and extension, with a slash before a path that holds none. -/
theorem target_eq_target_iff (root extension : Text) :
    (∀ p q, target root extension p = target root extension q ↔
      p = q ∨ ('/' ∉ p ∧ q = '/' :: p) ∨ ('/' ∉ q ∧ p = '/' :: q)) ∧
    ∀ p, '/' ∉ (split p).2 ∧
      target root extension p =
        if '/' ∈ p then root ++ p ++ extension else root ++ '/' :: p ++ extension := by
  refine ⟨fun p q => ?_, fun p => ⟨not_mem_leaf p, ?_⟩⟩
  · rw [target_eq, target_eq, List.append_right_inj, behindRoot_eq_behindRoot_iff]
  · rw [target_eq, behindRoot, ← List.append_assoc]
    split <;> rfl

end Docblocks.Document
