/-
# Docblocks.Proofs.BlockStructure — which lines open, fill and close a block.

`Block.parse` is one pass over the lines with at most one open block in hand.  This module says what a
block is without any pass, by predicates on line numbers: `Opens` looks back over all earlier lines,
`finish` looks ahead to the first closing line, and `Holds` says which fragment the block between them
is.  The main result, `parse_blocks`, is that the pass finds exactly these blocks, and that they do not
overlap.

The invariant that carries the induction is `Settled`: before line `i`, every block that was opened has
also been closed.  It holds exactly where the pass has no block in hand.
-/
import Docblocks.Block
import Mathlib.Data.List.Forall2

namespace Docblocks.Block

variable (m : Markers) (ls : List Text)

/-! ## Blocks by line numbers -/

/-- The tag that a line carries after the opening mark. -/
def tag? (line : Text) : Option Tag :=
  (Text.after? m.opening line).bind Tag.parse?

/-- What a line inside a block adds to its chunk: nothing without the line mark. -/
def captured? (line : Text) : Option Text :=
  (Text.after? m.line line).map fun rest => m.clean rest ++ ['\n']

/-- Line `i` starts with the opening mark and carries a tag after it. -/
def Tagged (i : Nat) : Prop :=
  ∃ line tag, ls[i]? = some line ∧ tag? m line = some tag

/-- Line `i` starts with the closing mark. -/
def Closes (i : Nat) : Prop :=
  ∃ line, ls[i]? = some line ∧ Text.startsWith m.closing line = true

/-- Line `i` opens a block: it is tagged, and either no earlier line opens one or some line strictly
between the latest earlier opening line and `i` closes it. -/
def Opens (i : Nat) : Prop :=
  Tagged m ls i ∧
    ((∀ j, j < i → ¬ Opens j) ∨
      ∃ j, ∃ _ : j < i, Opens j ∧ (∀ k, j < k → k < i → ¬ Opens k) ∧
        ∃ k, j < k ∧ k < i ∧ Closes m ls k)

/-- The first closing line after line `b`, or the number of lines when there is none. -/
def finish (b : Nat) : Nat :=
  b + 1 + (ls.drop (b + 1)).findIdx (Text.startsWith m.closing)

/-- Line `i` stands inside the block that line `b` opens. -/
def Inside (b i : Nat) : Prop :=
  Opens m ls b ∧ b < i ∧ i < finish m ls b

/-- `f` is the fragment of the block that line `b` opens: it carries the tag of `b`, and its lines are
the captured ones strictly between `b` and `finish m ls b`. -/
structure Holds (b : Nat) (f : Fragment) : Prop where
  tagged : ∃ line tag, ls[b]? = some line ∧ tag? m line = some tag ∧
    f.path = tag.path ∧ f.order = tag.order
  captured : f.chunk.lines = ((ls.take (finish m ls b)).drop (b + 1)).filterMap (captured? m)

/-- Every block opened before line `i` is closed before line `i`. -/
def Settled (i : Nat) : Prop :=
  ∀ j, j < i → Opens m ls j → ∃ k, j < k ∧ k < i ∧ Closes m ls k

variable {m ls}

theorem Tagged.lt_length {i : Nat} (h : Tagged m ls i) : i < ls.length := by
  obtain ⟨line, _, hline, _⟩ := h
  exact (List.getElem?_eq_some_iff.1 hline).1

theorem Opens.tagged {i : Nat} (h : Opens m ls i) : Tagged m ls i := by
  rw [Opens] at h
  exact h.1

/-! ## Where a block ends -/

theorem not_closes_of_lt_finish {b i : Nat} (hbi : b < i) (hi : i < finish m ls b) :
    ¬ Closes m ls i := by
  rintro ⟨line, hline, hclose⟩
  unfold finish at hi
  have hlt : i - (b + 1) < (ls.drop (b + 1)).findIdx (Text.startsWith m.closing) := by omega
  have hget : (ls.drop (b + 1))[i - (b + 1)]? = some line := by
    rw [List.getElem?_drop, show b + 1 + (i - (b + 1)) = i by omega, hline]
  obtain ⟨hlen, hline'⟩ := List.getElem?_eq_some_iff.1 hget
  have hnot := List.not_of_lt_findIdx hlt
  rw [hline', hclose] at hnot
  cases hnot

theorem closes_finish {b : Nat} (h : finish m ls b < ls.length) : Closes m ls (finish m ls b) := by
  unfold finish at h ⊢
  have hlt : (ls.drop (b + 1)).findIdx (Text.startsWith m.closing) < (ls.drop (b + 1)).length := by
    rw [List.length_drop]
    omega
  refine ⟨(ls.drop (b + 1))[(ls.drop (b + 1)).findIdx (Text.startsWith m.closing)], ?_,
    List.findIdx_getElem⟩
  rw [← List.getElem?_drop]
  exact List.getElem?_eq_getElem hlt

theorem finish_le_length {b : Nat} (h : b < ls.length) : finish m ls b ≤ ls.length := by
  have hle : (ls.drop (b + 1)).findIdx (Text.startsWith m.closing) ≤ (ls.drop (b + 1)).length :=
    List.findIdx_le_length
  rw [List.length_drop] at hle
  unfold finish
  omega

theorem finish_eq_length {b : Nat} (h : b < ls.length) (hnone : ∀ i, b < i → ¬ Closes m ls i) :
    finish m ls b = ls.length := by
  rcases Nat.lt_or_eq_of_le (finish_le_length h) with hlt | heq
  · exact absurd (closes_finish hlt) (hnone _ (by unfold finish; omega))
  · exact heq

/-! ## Where a block can open -/

theorem exists_latest {i j : Nat} (hji : j < i) (hj : Opens m ls j) :
    ∃ j, ∃ _ : j < i, Opens m ls j ∧ ∀ k, j < k → k < i → ¬ Opens m ls k := by
  induction i with
  | zero => omega
  | succ i ih =>
    by_cases hi : Opens m ls i
    · exact ⟨i, Nat.lt_succ_self i, hi, fun k _ _ => by omega⟩
    · have hne : j ≠ i := fun h => hi (h ▸ hj)
      obtain ⟨j', hj', hopen, hlast⟩ := ih (by omega)
      refine ⟨j', by omega, hopen, fun k hk hki hko => ?_⟩
      rcases Nat.lt_succ_iff_lt_or_eq.1 hki with h | h
      · exact hlast k hk h hko
      · exact hi (h ▸ hko)

/-- With every earlier block closed, a tagged line opens the next one. -/
theorem opens_of_settled {i : Nat} (hs : Settled m ls i) (ht : Tagged m ls i) : Opens m ls i := by
  rw [Opens]
  refine ⟨ht, ?_⟩
  by_cases hearlier : ∃ j, j < i ∧ Opens m ls j
  · obtain ⟨j, hji, hj⟩ := hearlier
    obtain ⟨j, hji, hj, hlast⟩ := exists_latest hji hj
    exact Or.inr ⟨j, hji, hj, hlast, hs j hji hj⟩
  · exact Or.inl fun j hji hj => hearlier ⟨j, hji, hj⟩

/-- As long as a block has not been closed, no line opens another one, and neither does the line that
closes it. -/
theorem not_opens_of_le_finish {b : Nat} (hb : Opens m ls b) (i : Nat) (hbi : b < i)
    (hi : i ≤ finish m ls b) : ¬ Opens m ls i := by
  induction i using Nat.strongRecOn with
  | ind i ih =>
    intro ho
    rw [Opens] at ho
    rcases ho.2 with hnone | ⟨j, hji, hj, hlast, k, hjk, hki, hk⟩
    · exact hnone b hbi hb
    -- The latest earlier opening line `j` is `b` itself, and nothing closes between `b` and `i`.
    · have hbj : b ≤ j := by
        rcases Nat.lt_or_ge j b with h | h
        · exact absurd hb (hlast b h hbi)
        · exact h
      rcases Nat.lt_or_eq_of_le hbj with h | rfl
      · exact ih j hji h (by omega) hj
      · exact not_closes_of_lt_finish hjk (by omega) hk

/-- No line stands inside two blocks. -/
theorem Inside.unique {b c i : Nat} (hb : Inside m ls b i) (hc : Inside m ls c i) : b = c := by
  obtain ⟨hbo, hbi, hbf⟩ := hb
  obtain ⟨hco, hci, hcf⟩ := hc
  rcases Nat.lt_trichotomy b c with h | h | h
  · exact absurd hco (not_opens_of_le_finish hbo c h (by omega))
  · exact h
  · exact absurd hbo (not_opens_of_le_finish hco b h (by omega))

/-! ## The pass -/

theorem settled_zero : Settled m ls 0 := fun _ hj _ => absurd hj (Nat.not_lt_zero _)

theorem settled_succ {i : Nat} (hs : Settled m ls i) (hi : ¬ Opens m ls i) :
    Settled m ls (i + 1) := by
  intro j hj ho
  have hne : j ≠ i := fun h => hi (h ▸ ho)
  obtain ⟨k, hjk, hki, hk⟩ := hs j (by omega) ho
  exact ⟨k, hjk, by omega, hk⟩

theorem settled_after_finish {b : Nat} (hs : Settled m ls b) (hb : Opens m ls b)
    (hf : finish m ls b < ls.length) : Settled m ls (finish m ls b + 1) := by
  intro j hj ho
  have hbf : b < finish m ls b := by unfold finish; omega
  rcases Nat.lt_trichotomy j b with h | rfl | h
  · obtain ⟨k, hjk, hkb, hk⟩ := hs j h ho
    exact ⟨k, hjk, by omega, hk⟩
  · exact ⟨finish m ls j, hbf, Nat.lt_succ_self _, closes_finish hf⟩
  · exact absurd ho (not_opens_of_le_finish hb j h (by omega))

theorem open?_eq (line : Text) : open? m line = (tag? m line).map Fragment.ofTag := rfl

/-- Without a block in hand, a line either opens one or is passed over. -/
theorem parseFrom_none_cons (line : Text) (rest : List Text) :
    parseFrom m none (line :: rest) = parseFrom m ((tag? m line).map Fragment.ofTag) rest := by
  simp [parseFrom, step, open?_eq]

theorem capture_eq (f : Fragment) (line : Text) :
    capture m f line =
      { f with chunk := ⟨f.chunk.lines ++ (captured? m line).toList⟩ } := by
  unfold capture captured?
  cases Text.after? m.line line <;> simp [Fragment.push, Chunk.push]

/-- With a block in hand, the pass runs up to the first closing line, and goes on after it with none. -/
theorem parseFrom_some (f : Fragment) (rest : List Text) :
    parseFrom m (some f) rest =
      { f with
        chunk := ⟨f.chunk.lines ++
          (rest.take (rest.findIdx (Text.startsWith m.closing))).filterMap (captured? m)⟩ } ::
        parseFrom m none (rest.drop (rest.findIdx (Text.startsWith m.closing) + 1)) := by
  induction rest generalizing f with
  | nil => simp [parseFrom]
  | cons line rest ih =>
    by_cases hclose : Text.startsWith m.closing line = true
    · simp [parseFrom, step, hclose, List.findIdx_cons]
    · have hstep : step m (some f) line = (none, some (capture m f line)) := by
        simp [step, hclose]
      rw [parseFrom, hstep, ih, capture_eq]
      cases h : captured? m line <;> simp [hclose, List.findIdx_cons, h]

/-! ## The blocks from a line on -/

variable (m ls) in
/-- `fs` are the fragments of the blocks that open from line `i` on, one each and in order. -/
def BlocksFrom (i : Nat) (fs : List Fragment) : Prop :=
  ∃ bs : List Nat, bs.Pairwise (· < ·) ∧ (∀ b, b ∈ bs ↔ i ≤ b ∧ Opens m ls b) ∧
    List.Forall₂ (Holds m ls) bs fs

theorem blocksFrom_nil {i : Nat} (hi : ls.length ≤ i) : BlocksFrom m ls i [] := by
  refine ⟨[], List.Pairwise.nil, fun b => ?_, List.Forall₂.nil⟩
  constructor
  · intro hb
    cases hb
  · rintro ⟨hb, ho⟩
    have := ho.tagged.lt_length
    omega

theorem BlocksFrom.skip {i : Nat} {fs : List Fragment} (hi : ¬ Opens m ls i)
    (h : BlocksFrom m ls (i + 1) fs) : BlocksFrom m ls i fs := by
  obtain ⟨bs, hsorted, hmem, hall⟩ := h
  refine ⟨bs, hsorted, fun b => ?_, hall⟩
  rw [hmem]
  constructor
  · rintro ⟨hb, ho⟩
    exact ⟨by omega, ho⟩
  · rintro ⟨hb, ho⟩
    have hne : b ≠ i := fun h => hi (h ▸ ho)
    exact ⟨by omega, ho⟩

theorem BlocksFrom.cons {i : Nat} {f : Fragment} {fs : List Fragment} (hi : Opens m ls i)
    (hf : Holds m ls i f) (h : BlocksFrom m ls (finish m ls i + 1) fs) :
    BlocksFrom m ls i (f :: fs) := by
  obtain ⟨bs, hsorted, hmem, hall⟩ := h
  have hlt : i < finish m ls i := by unfold finish; omega
  refine ⟨i :: bs, ?_, fun b => ?_, List.Forall₂.cons hf hall⟩
  · refine List.pairwise_cons.2 ⟨fun b hb => ?_, hsorted⟩
    have := ((hmem b).1 hb).1
    omega
  · rw [List.mem_cons, hmem]
    constructor
    · rintro (rfl | ⟨hb, ho⟩)
      · exact ⟨Nat.le_refl _, hi⟩
      · exact ⟨by omega, ho⟩
    · rintro ⟨hb, ho⟩
      rcases Nat.lt_or_eq_of_le hb with hib | hib
      -- A block that opens later opens after this one has been closed.
      · refine Or.inr ⟨?_, ho⟩
        rcases Nat.lt_or_ge (finish m ls i) b with h | h
        · exact h
        · exact absurd ho (not_opens_of_le_finish hi b hib h)
      · exact Or.inl hib.symm

/-- The fragment that the pass builds from an opening line is the one of its block. -/
theorem holds_parsed {i : Nat} {line : Text} {tag : Tag} (hline : ls[i]? = some line)
    (htag : tag? m line = some tag) :
    Holds m ls i
      { Fragment.ofTag tag with
        chunk := ⟨[] ++ ((ls.drop (i + 1)).take
          ((ls.drop (i + 1)).findIdx (Text.startsWith m.closing))).filterMap (captured? m)⟩ } := by
  refine ⟨⟨line, tag, hline, htag, rfl, rfl⟩, ?_⟩
  have hcount : finish m ls i - (i + 1) =
      (ls.drop (i + 1)).findIdx (Text.startsWith m.closing) := by
    unfold finish
    omega
  rw [List.drop_take, hcount]
  rfl

/-- From a line before which every block is closed, the pass finds the blocks that open from there
on. -/
theorem blocksFrom_parseFrom (n i : Nat) (hn : ls.length - i = n)
    (hs : i < ls.length → Settled m ls i) :
    BlocksFrom m ls i (parseFrom m none (ls.drop i)) := by
  -- The induction is on the lines that are left: an opening line takes the pass behind its block.
  induction n using Nat.strongRecOn generalizing i with
  | ind n ih =>
    by_cases hi : i < ls.length
    · have hline : ls[i]? = some ls[i] := List.getElem?_eq_getElem hi
      rw [List.drop_eq_getElem_cons hi, parseFrom_none_cons]
      cases htag : tag? m ls[i] with
      | none =>
        have hno : ¬ Opens m ls i := by
          intro ho
          obtain ⟨line, tag, hline', htag'⟩ := ho.tagged
          rw [hline] at hline'
          cases hline'
          rw [htag] at htag'
          cases htag'
        exact (ih (ls.length - (i + 1)) (by omega) (i + 1) rfl
          fun _ => settled_succ (hs hi) hno).skip hno
      | some tag =>
        have ho : Opens m ls i := opens_of_settled (hs hi) ⟨ls[i], tag, hline, htag⟩
        have hrest := ih (ls.length - (finish m ls i + 1)) (by unfold finish; omega)
          (finish m ls i + 1) rfl fun hf => settled_after_finish (hs hi) ho (by omega)
        rw [Option.map_some, parseFrom_some, List.drop_drop]
        exact BlocksFrom.cons ho (holds_parsed hline htag) hrest
    · rw [List.drop_eq_nil_of_le (by omega)]
      exact blocksFrom_nil (by omega)

/-- The fragments of a source are those of its opening lines, one each and in their order.  Inside a
block no line opens or closes one, so no line contributes to two fragments and no closing line to any;
a block that no line closes reaches to the end of the source. -/
theorem parse_blocks (m : Markers) (source : Text) :
    let ls := (Text.lines source).map Text.trimStart
    (∃ bs : List Nat, bs.Pairwise (· < ·) ∧ (∀ b, b ∈ bs ↔ Opens m ls b) ∧
      List.Forall₂ (Holds m ls) bs (parse m source)) ∧
    (∀ b i, Inside m ls b i → ¬ Opens m ls i ∧ ¬ Closes m ls i) ∧
    (∀ b c i, Inside m ls b i → Inside m ls c i → b = c) ∧
    (∀ b, Opens m ls b → (∀ i, b < i → ¬ Closes m ls i) → finish m ls b = ls.length) := by
  intro ls
  refine ⟨?_, ?_, fun b c i hb hc => hb.unique hc, ?_⟩
  · obtain ⟨bs, hsorted, hmem, hall⟩ : BlocksFrom m ls 0 (parseFrom m none (ls.drop 0)) :=
      blocksFrom_parseFrom _ 0 rfl fun _ => settled_zero
    refine ⟨bs, hsorted, fun b => ?_, hall⟩
    rw [hmem]
    exact and_iff_right (Nat.zero_le b)
  · rintro b i ⟨ho, hbi, hi⟩
    exact ⟨not_opens_of_le_finish ho i hbi (by omega), not_closes_of_lt_finish hbi hi⟩
  · intro b ho hnone
    exact finish_eq_length ho.tagged.lt_length hnone

end Docblocks.Block
