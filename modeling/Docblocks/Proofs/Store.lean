/-
# Docblocks.Proofs.Store — a store holds a stable sort of what was put in.

A store is seen through `Store.under`: the chunks that stand under a path and an order key.  Adding a
fragment puts its chunk behind those under its own path and key and changes nothing else, so after any
additions the chunks under a path and a key are those of the fragments with that path and key, in the
order of arrival (`under_appendAll`).  Two lists that ascend by a key and agree on each key are equal
(`eq_of_filter_eq`); therefore the chunks of a path are those of its fragments after a stable sort
(`chunks_appendAll`).
-/
import Docblocks.Proofs.Text.Order
import Docblocks.Store

namespace Docblocks

/-! ## Lists that ascend by a key -/

section Sorting

variable {α : Type} (key : α → Text)

/-- Two lists that ascend by a key and hold the same elements, in the same order, under each key are
equal. -/
theorem eq_of_filter_eq {xs ys : List α} (hxs : xs.Pairwise fun a b => key a ≤ key b)
    (hys : ys.Pairwise fun a b => key a ≤ key b)
    (h : ∀ k, (xs.filter fun a => key a = k) = ys.filter fun a => key a = k) : xs = ys := by
  induction xs generalizing ys with
  | nil =>
    cases ys with
    | nil => rfl
    | cons y ys =>
      have hy := h (key y)
      simp at hy
  | cons x xs ih =>
    cases ys with
    | nil =>
      have hx := h (key x)
      simp at hx
    | cons y ys =>
      -- The first element of each list has the least key, and both lists have both keys.
      have hx : x ∈ y :: ys := by
        have : x ∈ (x :: xs).filter fun a => key a = key x := by simp
        rw [h] at this
        exact (List.mem_filter.1 this).1
      have hy : y ∈ x :: xs := by
        have : y ∈ (y :: ys).filter fun a => key a = key y := by simp
        rw [← h] at this
        exact (List.mem_filter.1 this).1
      rw [List.pairwise_cons] at hxs hys
      have hkey : key x = key y := by
        refine le_antisymm ?_ ?_
        · rcases List.mem_cons.1 hy with rfl | hy
          · exact le_refl _
          · exact hxs.1 y hy
        · rcases List.mem_cons.1 hx with rfl | hx
          · exact le_refl _
          · exact hys.1 x hx
      have hhead := h (key x)
      rw [List.filter_cons_of_pos (by simp), List.filter_cons_of_pos (by simp [hkey])] at hhead
      obtain ⟨rfl, _⟩ := List.cons.inj hhead
      refine congrArg (x :: ·) (ih hxs.2 hys.2 fun k => ?_)
      have hk := h k
      by_cases hxk : key x = k
      · rw [List.filter_cons_of_pos (by simp [hxk]), List.filter_cons_of_pos (by simp [hxk])] at hk
        exact (List.cons.inj hk).2
      · rwa [List.filter_cons_of_neg (by simp [hxk]), List.filter_cons_of_neg (by simp [hxk])] at hk

/-- Whether the key of `a` stands no later than that of `b`. -/
def byKey (a b : α) : Bool :=
  Text.le (key a) (key b)

theorem byKey_trans (a b c : α) (hab : byKey key a b = true) (hbc : byKey key b c = true) :
    byKey key a c = true := by
  unfold byKey at *
  rw [Text.le_iff] at hab hbc ⊢
  exact le_trans hab hbc

theorem byKey_total (a b : α) : (byKey key a b || byKey key b a) = true := by
  rw [Bool.or_eq_true, byKey, byKey, Text.le_iff, Text.le_iff]
  exact le_total _ _

/-- Sorts by a key; elements with equal keys keep their order. -/
def sortBy (xs : List α) : List α :=
  xs.mergeSort (byKey key)

theorem pairwise_sortBy (xs : List α) : (sortBy key xs).Pairwise fun a b => key a ≤ key b := by
  have hsorted := List.pairwise_mergeSort (byKey_trans key) (byKey_total key) xs
  exact hsorted.imp fun h => Text.le_iff.1 h

/-- Sorting keeps the elements under each key, in their order. -/
theorem filter_sortBy (xs : List α) (k : Text) :
    ((sortBy key xs).filter fun a => key a = k) = xs.filter fun a => key a = k := by
  have hsame : ∀ a ∈ xs.filter fun a => key a = k, key a = k := fun a ha => by
    simpa using (List.mem_filter.1 ha).2
  have hpairwise : (xs.filter fun a => key a = k).Pairwise fun a b => byKey key a b = true := by
    rw [List.pairwise_iff_forall_sublist]
    intro a b hab
    have ha := hsame a (hab.subset (by simp))
    have hb := hsame b (hab.subset (by simp))
    rw [byKey, ha, hb, Text.le_iff]
  have hsub : (xs.filter fun a => key a = k).Sublist (sortBy key xs) :=
    List.sublist_mergeSort (byKey_trans key) (byKey_total key) hpairwise List.filter_sublist
  have hfilter := hsub.filter fun a => key a = k
  rw [List.filter_filter] at hfilter
  simp only [Bool.and_self] at hfilter
  refine (hfilter.eq_of_length ?_).symm
  exact (((List.mergeSort_perm xs _).filter _).length_eq).symm

end Sorting

/-! ## Entries under ascending keys -/

namespace Keyed

variable {α : Type} {m : Keyed α} {key : Text} {f : Option α → α}

/-- The keys ascend, and none stands twice. -/
def Ascending (m : Keyed α) : Prop :=
  m.keys.Pairwise (· < ·)

theorem keys_cons (k : Text) (a : α) (m : Keyed α) : keys ((k, a) :: m) = k :: keys m := rfl

theorem mem_keys_alter {k : Text} : k ∈ (m.alter key f).keys ↔ k = key ∨ k ∈ m.keys := by
  induction m with
  | nil => simp [alter, keys]
  | cons p m ih =>
    obtain ⟨k', a⟩ := p
    rw [alter, keys_cons, List.mem_cons]
    cases horder : Text.order key k' with
    | lt => simp [keys_cons]
    | eq =>
      rw [Text.order_eq_eq_iff] at horder
      simp [keys_cons, horder]
    | gt =>
      simp only [keys_cons, List.mem_cons, ih]
      exact or_left_comm

theorem Ascending.alter (h : Ascending m) : Ascending (m.alter key f) := by
  induction m with
  | nil => exact List.pairwise_singleton _ _
  | cons p m ih =>
    obtain ⟨k', a⟩ := p
    obtain ⟨hhead, htail⟩ := List.pairwise_cons.1 h
    rw [Keyed.alter]
    cases horder : Text.order key k' with
    | lt =>
      rw [Text.order_eq_lt_iff] at horder
      refine List.pairwise_cons.2 ⟨fun k hk => ?_, h⟩
      rcases List.mem_cons.1 hk with rfl | hk
      · exact horder
      · exact lt_trans horder (hhead k hk)
    | eq => exact List.pairwise_cons.2 ⟨hhead, htail⟩
    | gt =>
      rw [Text.order_eq_gt_iff] at horder
      refine List.pairwise_cons.2 ⟨fun k hk => ?_, ih htail⟩
      rcases mem_keys_alter.1 hk with rfl | hk
      · exact horder
      · exact hhead k hk

theorem get?_eq_none_iff {k : Text} : m.get? k = none ↔ k ∉ m.keys := by
  induction m with
  | nil => simp [get?, keys]
  | cons p m ih =>
    obtain ⟨k', a⟩ := p
    rw [get?, keys_cons, List.mem_cons]
    by_cases hk : k' = k
    · simp [hk]
    · simp [hk, ih, Ne.symm hk]

theorem get?_alter (h : Ascending m) (k : Text) :
    (m.alter key f).get? k = if k = key then some (f (m.get? key)) else m.get? k := by
  induction m with
  | nil =>
    by_cases hk : k = key
    · simp [alter, get?, hk]
    · simp [alter, get?, hk, Ne.symm hk]
  | cons p m ih =>
    obtain ⟨k', a⟩ := p
    obtain ⟨hhead, htail⟩ := List.pairwise_cons.1 h
    rw [alter]
    cases horder : Text.order key k' with
    | lt =>
      rw [Text.order_eq_lt_iff] at horder
      -- A key below the first one has no entry yet.
      have hnone : get? key ((k', a) :: m) = none := by
        rw [get?_eq_none_iff, keys_cons, List.mem_cons, not_or]
        exact ⟨ne_of_lt horder, fun hkey => lt_asymm horder (hhead key hkey)⟩
      rw [hnone]
      by_cases hk : k = key
      · simp [get?, hk]
      · simp [get?, hk, Ne.symm hk]
    | eq =>
      rw [Text.order_eq_eq_iff] at horder
      subst horder
      by_cases hk : k = key
      · simp [get?, hk]
      · simp [get?, hk, Ne.symm hk]
    | gt =>
      rw [Text.order_eq_gt_iff] at horder
      have hne : k' ≠ key := ne_of_lt horder
      simp only [get?, ih htail, if_neg hne]
      by_cases hk' : k' = k
      · have hk : k ≠ key := hk' ▸ hne
        rw [if_pos hk', if_neg hk, if_pos hk']
      · rw [if_neg hk', if_neg hk']

/-! ## Lists as entries -/

/-- The elements of all entries, each with its key. -/
def spread (m : Keyed (List α)) : List (Text × α) :=
  m.flatMap fun p => p.2.map fun a => (p.1, a)

theorem map_snd_spread (m : Keyed (List α)) : m.spread.map Prod.snd = m.values.flatten := by
  induction m with
  | nil => rfl
  | cons p m ih =>
    rw [spread, List.flatMap_cons, ← spread, List.map_append, ih, List.map_map]
    simp [values, Function.comp_def]

theorem mem_keys_of_mem_spread {m : Keyed (List α)} {p : Text × α} (h : p ∈ m.spread) :
    p.1 ∈ m.keys := by
  obtain ⟨q, hq, hp⟩ := List.mem_flatMap.1 h
  obtain ⟨a, _, rfl⟩ := List.mem_map.1 hp
  exact List.mem_map_of_mem hq

theorem pairwise_spread {m : Keyed (List α)} (h : Ascending m) :
    m.spread.Pairwise fun p q => p.1 ≤ q.1 := by
  induction m with
  | nil => exact List.Pairwise.nil
  | cons p m ih =>
    obtain ⟨hhead, htail⟩ := List.pairwise_cons.1 h
    rw [spread, List.flatMap_cons, ← spread, List.pairwise_append]
    refine ⟨?_, ih htail, ?_⟩
    · rw [List.pairwise_map]
      exact List.pairwise_of_forall fun _ _ => le_refl _
    · intro a ha b hb
      obtain ⟨_, _, rfl⟩ := List.mem_map.1 ha
      exact le_of_lt (hhead _ (mem_keys_of_mem_spread hb))

theorem filter_spread {m : Keyed (List α)} (h : Ascending m) (k : Text) :
    (m.spread.filter fun p => p.1 = k) = ((m.get? k).getD []).map fun a => (k, a) := by
  induction m with
  | nil => rfl
  | cons p m ih =>
    obtain ⟨k', as⟩ := p
    obtain ⟨hhead, htail⟩ := List.pairwise_cons.1 h
    rw [spread, List.flatMap_cons, ← spread, List.filter_append, ih htail, get?]
    by_cases hk : k' = k
    · -- The key stands first, so it has no other entry.
      have hnone : get? k m = none := by
        rw [get?_eq_none_iff]
        exact fun hmem => lt_irrefl k' (hk ▸ hhead k hmem)
      simp [hnone, hk, List.filter_map, Function.comp_def]
    · simp [hk, List.filter_map, Function.comp_def]

end Keyed

/-! ## Adding fragments -/

namespace Store

/-- The chunks under a path and an order key, in the order of arrival. -/
def under (s : Store) (path order : Text) : List Chunk :=
  (((s.documents.get? path).getD []).get? order).getD []

/-- The paths of a store ascend, and so do the order keys under each of them. -/
structure Ordered (s : Store) : Prop where
  paths : Keyed.Ascending s.documents
  orders : ∀ path, Keyed.Ascending ((s.documents.get? path).getD [])

variable {s : Store}

theorem ordered_empty : Ordered {} :=
  ⟨List.Pairwise.nil, fun _ => List.Pairwise.nil⟩

theorem Ordered.append (h : Ordered s) (f : Fragment) : Ordered (s.append f) := by
  refine ⟨h.paths.alter, fun path => ?_⟩
  rw [Store.append, Keyed.get?_alter h.paths]
  by_cases hpath : path = f.path
  · rw [if_pos hpath, Option.getD_some]
    exact (h.orders f.path).alter
  · rw [if_neg hpath]
    exact h.orders path

/-- A fragment's chunk comes behind those under its path and key; nothing else changes. -/
theorem under_append (h : Ordered s) (f : Fragment) (path order : Text) :
    (s.append f).under path order =
      s.under path order ++ if f.path = path ∧ f.order = order then [f.chunk] else [] := by
  unfold under
  rw [Store.append, Keyed.get?_alter h.paths]
  by_cases hpath : path = f.path
  · rw [if_pos hpath, Option.getD_some, Keyed.get?_alter (h.orders f.path), ← hpath]
    by_cases horder : order = f.order
    · rw [if_pos horder, if_pos ⟨rfl, horder.symm⟩, horder]
      rfl
    · rw [if_neg horder, if_neg fun hboth => horder hboth.2.symm, List.append_nil]
  · rw [if_neg hpath, if_neg fun hboth => hpath hboth.1.symm, List.append_nil]

theorem mem_paths_append (f : Fragment) {path : Text} :
    path ∈ (s.append f).paths ↔ path = f.path ∨ path ∈ s.paths :=
  Keyed.mem_keys_alter

theorem Ordered.appendAll (h : Ordered s) (fs : List Fragment) : Ordered (s.appendAll fs) := by
  induction fs generalizing s with
  | nil => exact h
  | cons f fs ih => exact ih (h.append f)

theorem under_appendAll (h : Ordered s) (fs : List Fragment) (path order : Text) :
    (s.appendAll fs).under path order = s.under path order ++
      (fs.filter fun f => f.path = path ∧ f.order = order).map Fragment.chunk := by
  induction fs generalizing s with
  | nil => exact (List.append_nil _).symm
  | cons f fs ih =>
    rw [appendAll, List.foldl_cons, ← appendAll, ih (h.append f), under_append h, List.append_assoc]
    by_cases hf : f.path = path ∧ f.order = order
    · rw [if_pos hf, List.filter_cons_of_pos (by simpa using hf)]
      rfl
    · rw [if_neg hf, List.filter_cons_of_neg (by simpa using hf)]
      rfl

theorem mem_paths_appendAll (fs : List Fragment) {path : Text} :
    path ∈ (s.appendAll fs).paths ↔ path ∈ s.paths ∨ ∃ f ∈ fs, f.path = path := by
  induction fs generalizing s with
  | nil => simp [appendAll]
  | cons f fs ih =>
    rw [appendAll, List.foldl_cons, ← appendAll, ih, mem_paths_append]
    constructor
    · rintro ((rfl | hs) | ⟨g, hg, rfl⟩)
      · exact Or.inr ⟨f, List.mem_cons_self, rfl⟩
      · exact Or.inl hs
      · exact Or.inr ⟨g, List.mem_cons_of_mem _ hg, rfl⟩
    · rintro (hs | ⟨g, hg, rfl⟩)
      · exact Or.inl (Or.inr hs)
      · rcases List.mem_cons.1 hg with rfl | hg
        · exact Or.inl (Or.inl rfl)
        · exact Or.inr ⟨g, hg, rfl⟩

/-! ## The chunks of a path -/

theorem text_eq_flatten (s : Store) (path : Text) :
    s.text path = ((s.chunks path).flatMap Chunk.lines).flatten := by
  rw [← List.flatMap_id, List.flatMap_assoc]
  simp only [List.flatMap_id]
  rfl

theorem chunks_eq_sortBy (h : Ordered s) {path : Text} {fs : List Fragment}
    (hunder : ∀ order,
      s.under path order = (fs.filter fun f => f.order = order).map Fragment.chunk) :
    s.chunks path = (sortBy Fragment.order fs).map Fragment.chunk := by
  -- With their keys beside them, the chunks on both sides ascend and agree on each key.
  have hspread : ((s.documents.get? path).getD []).spread =
      (sortBy Fragment.order fs).map fun f => (f.order, f.chunk) := by
    refine eq_of_filter_eq Prod.fst (Keyed.pairwise_spread (h.orders path)) ?_ fun k => ?_
    · rw [List.pairwise_map]
      exact pairwise_sortBy Fragment.order fs
    · rw [Keyed.filter_spread (h.orders path), ← under, hunder k, List.filter_map, List.map_map]
      show _ = ((sortBy Fragment.order fs).filter fun f => f.order = k).map _
      rw [filter_sortBy]
      refine List.map_congr_left fun f hf => ?_
      have hk : f.order = k := by simpa using (List.mem_filter.1 hf).2
      simp [hk]
  rw [chunks, ← Keyed.map_snd_spread, hspread, List.map_map]
  rfl

/-- The chunks of a path are those of its fragments, sorted by order key; equal keys keep the order of
arrival. -/
theorem chunks_appendAll (fs : List Fragment) (path : Text) :
    (appendAll {} fs).chunks path =
      (sortBy Fragment.order (fs.filter fun f => f.path = path)).map Fragment.chunk := by
  refine chunks_eq_sortBy (ordered_empty.appendAll fs) fun order => ?_
  rw [under_appendAll ordered_empty, List.filter_filter]
  simp [under, Keyed.get?, Bool.and_comm]

end Store

end Docblocks
