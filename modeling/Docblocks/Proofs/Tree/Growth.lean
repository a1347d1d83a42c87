/-
# Docblocks.Proofs.Tree.Growth — how a tree can become larger.

A tree is seen only through `get?` here.  The first part says what the two changes that writing makes,
`insert` and `setContent`, do to that view.  The second part orders trees.  `Adds t u new` is growth by
new entries alone: all of `t` stays as it is, and what is new satisfies `new`.  `Grows t u` is the weaker
order that writing documents keeps in any case: files may also become longer at their end.
-/
import Docblocks.Tree.Access
import Mathlib.Data.List.Basic

namespace Docblocks

namespace Tree

/-! ## The view of a tree -/

theorem get?_of_mem {t : Tree} {l : Location} {e : Entry} (h : (l, e) ∈ t.entries) :
    t.get? l = some e := by
  have hlookup : ∀ {es : List (Location × Entry)}, (es.map Prod.fst).Nodup → (l, e) ∈ es →
      es.lookup l = some e := by
    intro es
    induction es with
    | nil => intro _ hmem; cases hmem
    | cons p es ih =>
      intro hnodup hmem
      rw [List.map_cons, List.nodup_cons] at hnodup
      rcases List.mem_cons.1 hmem with rfl | hmem
      · simp
      · have hne : l ≠ p.1 := fun hl => hnodup.1 (hl ▸ List.mem_map_of_mem hmem)
        rw [List.lookup_cons, beq_eq_false_iff_ne.2 hne]
        exact ih hnodup.2 hmem
  cases l with
  | nil => exact absurd rfl (t.rooted _ h)
  | cons n l => exact hlookup t.distinct h

/-- Every entry stands in a directory. -/
theorem get?_parent {t : Tree} {n : Text} {l : Location} {e : Entry}
    (h : t.get? (n :: l) = some e) : t.get? l = some .dir := by
  rcases mem_of_get? h with ⟨hnil, _⟩ | hmem
  · cases hnil
  · rcases t.closed _ hmem with hroot | hdir
    · have hl : l = [] := hroot
      rw [hl, get?_root]
    · exact get?_of_mem hdir

/-- Whatever stands above an entry is a directory. -/
theorem get?_of_suffix {t : Tree} {k l : Location} {e : Entry} (hkl : k <:+ l) (hne : k ≠ l)
    (h : t.get? l = some e) : t.get? k = some .dir := by
  induction l generalizing e with
  | nil => exact absurd (List.suffix_nil.1 hkl) hne
  | cons n l ih =>
    have hdir : t.get? l = some .dir := get?_parent h
    rcases List.suffix_cons_iff.1 hkl with heq | hsuffix
    · exact absurd heq hne
    · by_cases hk : k = l
      · rw [hk]
        exact hdir
      · exact ih hsuffix hk hdir

theorem get?_cwd (t : Tree) : t.get? t.cwd = some .dir := by
  rcases t.working with h | h
  · rw [h, get?_root]
  · exact get?_of_mem h

/-! ## Changes, seen through the view -/

@[simp]
theorem cwd_insert (t : Tree) (l : Location) (n : Text) (e : Entry) :
    (t.insert l n e).cwd = t.cwd := by
  unfold insert
  split <;> rfl

theorem get?_insert {t : Tree} {l : Location} {n : Text} (hl : t.get? l = some .dir)
    (hn : t.get? (n :: l) = none) (e : Entry) (k : Location) :
    (t.insert l n e).get? k = if k = n :: l then some e else t.get? k := by
  unfold insert
  rw [dif_pos ⟨hl, hn⟩]
  cases k with
  | nil => rfl
  | cons m k =>
    show (t.entries ++ [(n :: l, e)]).lookup (m :: k) = _
    rw [List.lookup_append]
    by_cases hk : m :: k = n :: l
    · have hnone : t.entries.lookup (m :: k) = none := by
        rw [hk]
        exact hn
      rw [hnone, hk]
      simp
    · rw [if_neg hk]
      have hnone : [(n :: l, e)].lookup (m :: k) = none := by
        simp [List.lookup_cons, beq_eq_false_iff_ne.2 hk]
      rw [hnone, Option.or_none]
      rfl

theorem get?_setContent (t : Tree) (l : Location) (content : List UInt8) (k : Location) :
    (t.setContent l content).get? k =
      if k = l then (t.get? k).map (refill content) else t.get? k := by
  -- The change keeps all locations, so a look-up stops where it stopped before.
  have hlookup : ∀ es : List (Location × Entry),
      (es.map fun p => if p.1 = l then (p.1, refill content p.2) else p).lookup k =
        if k = l then (es.lookup k).map (refill content) else es.lookup k := by
    intro es
    induction es with
    | nil => simp
    | cons p es ih =>
      obtain ⟨j, e⟩ := p
      rw [List.map_cons]
      by_cases hj : k = j
      · subst hj
        by_cases hl : k = l <;> simp [hl]
      · have hb : (k == j) = false := beq_eq_false_iff_ne.2 hj
        by_cases hl : j = l
        · rw [if_pos hl, List.lookup_cons, List.lookup_cons, hb]
          exact ih
        · rw [if_neg hl, List.lookup_cons, List.lookup_cons, hb]
          exact ih
  cases k with
  | nil =>
    rw [get?_root, get?_root]
    split <;> rfl
  | cons n k => exact hlookup t.entries

/-! ## Growth by new entries -/

/-- `u` is `t` with new entries, each of which satisfies `new`. -/
structure Adds (t u : Tree) (new : Location → Entry → Prop) : Prop where
  cwd : u.cwd = t.cwd
  kept : ∀ l e, t.get? l = some e → u.get? l = some e
  only : ∀ l e, u.get? l = some e → t.get? l = some e ∨ new l e

theorem Adds.refl (t : Tree) (new : Location → Entry → Prop) : Adds t t new :=
  ⟨rfl, fun _ _ h => h, fun _ _ h => Or.inl h⟩

theorem Adds.trans {t u v : Tree} {new : Location → Entry → Prop} (htu : Adds t u new)
    (huv : Adds u v new) : Adds t v new := by
  refine ⟨huv.cwd.trans htu.cwd, fun l e h => huv.kept l e (htu.kept l e h), fun l e h => ?_⟩
  rcases huv.only l e h with h | h
  · exact htu.only l e h
  · exact Or.inr h

theorem Adds.mono {t u : Tree} {new new' : Location → Entry → Prop} (h : Adds t u new)
    (himp : ∀ l e, new l e → new' l e) : Adds t u new' :=
  ⟨h.cwd, h.kept, fun l e he => (h.only l e he).imp_right (himp l e)⟩

theorem adds_insert (t : Tree) (l : Location) (n : Text) (e : Entry) :
    Adds t (t.insert l n e) fun k e' => k = n :: l ∧ e' = e := by
  by_cases h : t.get? l = some .dir ∧ t.get? (n :: l) = none
  · obtain ⟨hl, hn⟩ := h
    refine ⟨cwd_insert t l n e, fun k e' hk => ?_, fun k e' hk => ?_⟩
    · have hne : k ≠ n :: l := fun heq => by rw [heq, hn] at hk; cases hk
      rw [get?_insert hl hn, if_neg hne]
      exact hk
    · rw [get?_insert hl hn] at hk
      by_cases heq : k = n :: l
      · rw [if_pos heq] at hk
        exact Or.inr ⟨heq, (Option.some.inj hk).symm⟩
      · rw [if_neg heq] at hk
        exact Or.inl hk
  · have hsame : t.insert l n e = t := by
      unfold insert
      rw [dif_neg h]
    rw [hsame]
    exact Adds.refl t _

end Tree

/-! ## Growth of files -/

/-- What an entry can become: a file can become longer at its end, and all else stays. -/
def Entry.Grows : Entry → Entry → Prop
  | .file content, e => ∃ more, e = .file (content ++ more)
  | .dir, e => e = .dir
  | .link text, e => e = .link text
  | .device, e => e = .device

theorem Entry.Grows.refl (e : Entry) : e.Grows e := by
  cases e with
  | file content => exact ⟨[], by rw [List.append_nil]⟩
  | dir => rfl
  | link text => rfl
  | device => rfl

theorem Entry.Grows.trans {a b c : Entry} (hab : a.Grows b) (hbc : b.Grows c) : a.Grows c := by
  cases a with
  | file content =>
    obtain ⟨more, rfl⟩ := hab
    obtain ⟨more', rfl⟩ := hbc
    exact ⟨more ++ more', by rw [List.append_assoc]⟩
  | dir => cases hab; exact hbc
  | link text => cases hab; exact hbc
  | device => cases hab; exact hbc

/-- What has become a directory was one. -/
theorem Entry.Grows.eq_dir {e : Entry} (h : e.Grows .dir) : e = .dir := by
  cases e with
  | file content => obtain ⟨_, h⟩ := h; cases h
  | dir => rfl
  | link text => cases h
  | device => cases h

namespace Tree

/-- Every entry of `t` is still there in `u`, and has at most grown. -/
structure Grows (t u : Tree) : Prop where
  cwd : u.cwd = t.cwd
  entries : ∀ l e, t.get? l = some e → ∃ e', u.get? l = some e' ∧ e.Grows e'

theorem Grows.refl (t : Tree) : Grows t t :=
  ⟨rfl, fun _ e h => ⟨e, h, Entry.Grows.refl e⟩⟩

theorem Grows.trans {t u v : Tree} (htu : Grows t u) (huv : Grows u v) : Grows t v := by
  refine ⟨huv.cwd.trans htu.cwd, fun l e h => ?_⟩
  obtain ⟨e', he', hee'⟩ := htu.entries l e h
  obtain ⟨e'', he'', he'e''⟩ := huv.entries l e' he'
  exact ⟨e'', he'', hee'.trans he'e''⟩

theorem Adds.grows {t u : Tree} {new : Location → Entry → Prop} (h : Adds t u new) : Grows t u :=
  ⟨h.cwd, fun l e he => ⟨e, h.kept l e he, Entry.Grows.refl e⟩⟩

theorem Grows.file {t u : Tree} (h : Grows t u) {l : Location} {content : List UInt8}
    (hl : t.get? l = some (.file content)) : ∃ more, u.get? l = some (.file (content ++ more)) := by
  obtain ⟨e, he, more, rfl⟩ := h.entries l _ hl
  exact ⟨more, he⟩

/-- Putting more bytes behind those of a file is growth. -/
theorem grows_setContent {t : Tree} {l : Location} {content : List UInt8}
    (hl : t.get? l = some (.file content)) (more : List UInt8) :
    Grows t (t.setContent l (content ++ more)) := by
  refine ⟨rfl, fun k e hk => ?_⟩
  rw [get?_setContent]
  by_cases hkl : k = l
  · rw [hkl, hl] at hk
    cases hk
    exact ⟨.file (content ++ more), by rw [if_pos hkl, hkl, hl]; rfl, more, rfl⟩
  · exact ⟨e, by rw [if_neg hkl]; exact hk, Entry.Grows.refl e⟩

end Tree

end Docblocks
