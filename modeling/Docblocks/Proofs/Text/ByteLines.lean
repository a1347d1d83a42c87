/-
# Docblocks.Proofs.Text.ByteLines — ill-formed bytes stay on their own line.

A source is decoded as a whole and cut into lines afterwards, so a line could end while the decoder is in
the middle of a sequence.  It does no harm: a sequence under way never takes an ASCII byte
(`step_of_ascii`), so every ASCII byte is read as itself and leaves the decoder between characters, and no
sequence becomes an ASCII character (`le_of_mem_step`).  The feeds and carriage returns of the decoded
text are therefore those of the bytes, and cutting before decoding gives the same lines.

The invariant behind both facts is `Sequence.Sound`: the characters that a sequence can still become have
numbers from `least` up to below `limit`, and each byte narrows that range.
-/
import Docblocks.Block
import Docblocks.Proofs.Text
import Docblocks.Proofs.Text.Utf8
import Mathlib.Algebra.Group.Nat.Defs

namespace Docblocks.Text.Utf8

/-! ## What a sequence can become -/

/-- The least number of a character that a sequence can become. -/
def Sequence.least (q : Sequence) : Nat :=
  (q.value * 0x40 + q.low % 0x40) * 0x40 ^ (q.owed - 1)

/-- The first number above those of the characters that a sequence can become. -/
def Sequence.limit (q : Sequence) : Nat :=
  (q.value * 0x40 + q.high % 0x40 + 1) * 0x40 ^ (q.owed - 1)

/-- A sequence that goes on with a byte above ASCII and becomes a character above ASCII. -/
structure Sequence.Sound (q : Sequence) : Prop where
  owed : 1 ≤ q.owed
  low : 0x80 ≤ q.low
  high : q.high ≤ 0xBF
  beyond : 0x80 ≤ q.least
  valid : q.limit ≤ 0xD800 ∨ 0xE000 ≤ q.least ∧ q.limit ≤ 0x110000

/-- The decoder stands between characters or in a sound sequence. -/
def Ready (state : Option Sequence) : Prop :=
  ∀ q ∈ state, q.Sound

theorem toNat_ofNat {n : Nat} (h : n.isValidChar) : (Char.ofNat n).toNat = n := by
  rw [Char.ofNat, dif_pos h]
  rfl

theorem ready_none : Ready none :=
  fun _ hq => nomatch hq

/-- What a byte with number `n` can bring between characters. -/
inductive Brings (n : Nat) : List (Option Char) × Option Sequence → Prop
  | ascii (h : n < 0x80) : Brings n ([some (Char.ofNat n)], none)
  | illFormed (h : 0x80 ≤ n) : Brings n ([none], none)
  | lead (h : 0x80 ≤ n) {q : Sequence} (hq : q.Sound) : Brings n ([], some q)

/-- A sequence that is begun is sound: it has no value in a form that is too long, no surrogate, and none
above 0x10FFFF. -/
theorem brings_start (b : UInt8) : Brings b.toNat (start b) := by
  have hb := b.toNat_lt
  unfold start
  generalize b.toNat = n at hb
  refine iteInduction (motive := Brings n) .ascii fun _ => ?_
  refine iteInduction (motive := Brings n) (fun _ => .illFormed (by omega)) fun _ => ?_
  -- From here on the byte leads, up to 0xF4.
  iterate 7
    refine iteInduction (motive := Brings n) (fun _ => .lead (by omega) ?_) fun _ => ?_
    · constructor <;> simp only [Sequence.least, Sequence.limit] <;> omega
  exact .illFormed (by omega)

section

variable {n : Nat} {r : List (Option Char) × Option Sequence} (h : Brings n r)

include h

theorem Brings.ready : Ready r.2 := by
  cases h with
  | ascii | illFormed => exact ready_none
  | lead _ hq =>
    rintro _ ⟨⟩
    exact hq

/-- A byte brings something, or a sequence is then under way. -/
theorem Brings.progress : r.1 ≠ [] ∨ r.2 ≠ none := by
  cases h <;> simp

/-- A byte that is not ASCII brings no character by itself. -/
theorem Brings.not_mem (hn : 0x80 ≤ n) (c : Char) : some c ∉ r.1 := by
  cases h with
  | ascii hascii => omega
  | illFormed | lead => simp

end

/-- Without narrower bounds, what is owed can be any digits. -/
theorem least_plain (value k : Nat) :
    Sequence.least ⟨value, k + 1, 0x80, 0xBF⟩ = value * 0x40 ^ (k + 1) := by
  simp [Sequence.least, Nat.pow_succ', Nat.mul_assoc]

theorem limit_plain (value k : Nat) :
    Sequence.limit ⟨value, k + 1, 0x80, 0xBF⟩ = (value + 1) * 0x40 ^ (k + 1) := by
  simp [Sequence.limit, Nat.pow_succ', Nat.add_assoc, ← Nat.mul_assoc, Nat.add_mul]

section

variable {q : Sequence} {n : Nat} (hq : q.Sound) (hlow : q.low ≤ n) (hhigh : n ≤ q.high)

include hq hlow hhigh

/-- A byte that is taken is a digit between those of the bounds. -/
theorem Sequence.Sound.digit :
    q.value * 0x40 + q.low % 0x40 ≤ q.value * 0x40 + n % 0x40 ∧
      q.value * 0x40 + n % 0x40 + 1 ≤ q.value * 0x40 + q.high % 0x40 + 1 := by
  have := hq.low
  have := hq.high
  omega

/-- A byte that is not the last one narrows the range. -/
theorem Sequence.Sound.next (howed : 1 < q.owed) :
    Sequence.Sound ⟨q.value * 0x40 + n % 0x40, q.owed - 1, 0x80, 0xBF⟩ := by
  obtain ⟨k, hk⟩ : ∃ k, q.owed - 1 = k + 1 := ⟨q.owed - 2, by omega⟩
  obtain ⟨hleast, hlimit⟩ := hq.digit hlow hhigh
  have hbeyond := hq.beyond
  have hvalid := hq.valid
  rw [Sequence.least, hk] at hbeyond hvalid
  rw [Sequence.limit, hk] at hvalid
  have hleast' := Nat.mul_le_mul_right (0x40 ^ (k + 1)) hleast
  have hlimit' := Nat.mul_le_mul_right (0x40 ^ (k + 1)) hlimit
  rw [hk]
  refine ⟨Nat.succ_pos k, Nat.le_refl _, Nat.le_refl _, ?_, ?_⟩
  · rw [least_plain]
    exact hbeyond.trans hleast'
  · rw [least_plain, limit_plain]
    exact hvalid.imp hlimit'.trans fun h => ⟨h.1.trans hleast', hlimit'.trans h.2⟩

/-- The last byte makes a character out of the range. -/
theorem Sequence.Sound.last (howed : q.owed ≤ 1) :
    0x80 ≤ (Char.ofNat (q.value * 0x40 + n % 0x40)).toNat := by
  obtain ⟨hleast, hlimit⟩ := hq.digit hlow hhigh
  have hone : q.owed - 1 = 0 := by omega
  have hbeyond := hq.beyond
  have hvalid := hq.valid
  rw [Sequence.least, hone, Nat.pow_zero, Nat.mul_one] at hbeyond hvalid
  rw [Sequence.limit, hone, Nat.pow_zero, Nat.mul_one] at hvalid
  have hchar : Nat.isValidChar (q.value * 0x40 + n % 0x40) := by
    unfold Nat.isValidChar
    omega
  rw [toNat_ofNat hchar]
  omega

end

variable {state : Option Sequence} {b : UInt8}

theorem ready_step (hstate : Ready state) (b : UInt8) : Ready (step state b).2 := by
  cases state with
  | none => exact (brings_start b).ready
  | some q =>
    have hq := hstate q rfl
    rw [step]
    by_cases hrange : q.low ≤ b.toNat ∧ b.toNat ≤ q.high
    · rw [if_pos hrange]
      by_cases howed : q.owed ≤ 1
      · simp only [if_pos howed]
        exact ready_none
      · simp only [if_neg howed]
        rintro _ ⟨⟩
        exact hq.next hrange.1 hrange.2 (by omega)
    · rw [if_neg hrange]
      exact (brings_start b).ready

/-! ## ASCII bytes and characters -/

theorem start_of_ascii (hb : b.toNat < 0x80) : start b = ([some (Char.ofNat b.toNat)], none) :=
  if_pos hb

/-- An ASCII byte ends the sequence under way as ill-formed, as the end of the bytes would, and is then
read as itself. -/
theorem step_of_ascii (hstate : Ready state) (hb : b.toNat < 0x80) :
    step state b = (decodeFrom state [] ++ [some (Char.ofNat b.toNat)], none) := by
  cases state with
  | none => exact start_of_ascii hb
  | some q =>
    have hlow := (hstate q rfl).low
    rw [step, if_neg (by omega), start_of_ascii hb]
    rfl

/-- Any other byte brings no ASCII character. -/
theorem le_of_mem_step (hstate : Ready state) (hb : 0x80 ≤ b.toNat) {c : Char}
    (hc : some c ∈ (step state b).1) : 0x80 ≤ c.toNat := by
  have hstart : some c ∉ (start b).1 := (brings_start b).not_mem hb c
  cases state with
  | none => exact absurd hc hstart
  | some q =>
    have hq := hstate q rfl
    rw [step] at hc
    by_cases hrange : q.low ≤ b.toNat ∧ b.toNat ≤ q.high
    · rw [if_pos hrange] at hc
      by_cases howed : q.owed ≤ 1
      · simp only [if_pos howed, List.mem_singleton, Option.some.injEq] at hc
        rw [hc]
        exact hq.last hrange.1 hrange.2 howed
      · simp only [if_neg howed, List.not_mem_nil] at hc
    · rw [if_neg hrange] at hc
      simp only [List.mem_cons, reduceCtorEq, false_or] at hc
      exact absurd hc hstart

/-- What comes out in ASCII went in as ASCII. -/
theorem toNat_of_mem_step (hstate : Ready state) {c : Char} (hc : c.toNat < 0x80)
    (hmem : some c ∈ (step state b).1) : b.toNat = c.toNat := by
  by_cases hb : b.toNat < 0x80
  · rw [step_of_ascii hstate hb, List.mem_append, List.mem_singleton, Option.some.injEq] at hmem
    rcases hmem with hmem | rfl
    · cases state <;> simp [decodeFrom] at hmem
    · exact (toNat_ofNat (Or.inl (by omega))).symm
  · have := le_of_mem_step hstate (by omega) hmem
    omega

/-! ## Runs of the decoder -/

theorem decodeFrom_cons (state : Option Sequence) (b : UInt8) (bs : List UInt8) :
    decodeFrom state (b :: bs) = (step state b).1 ++ decodeFrom (step state b).2 bs := by
  cases state <;> rfl

/-- What has been read is settled: neither what it brings nor where the decoder stands after it depends on
what follows. -/
theorem exists_decodeFrom_append (hstate : Ready state) (bs : List UInt8) :
    ∃ out state', Ready state' ∧
      ∀ rest, decodeFrom state (bs ++ rest) = out ++ decodeFrom state' rest := by
  induction bs generalizing state with
  | nil => exact ⟨[], state, hstate, fun rest => rfl⟩
  | cons b bs ih =>
    obtain ⟨out, state', hstate', hrest⟩ := ih (ready_step hstate b)
    refine ⟨(step state b).1 ++ out, state', hstate', fun rest => ?_⟩
    rw [List.cons_append, decodeFrom_cons, hrest, List.append_assoc]

/-- At an ASCII byte the decoder starts anew. -/
theorem decodeFrom_append_ascii (hstate : Ready state) (hb : b.toNat < 0x80) (bs rest : List UInt8) :
    decodeFrom state (bs ++ b :: rest) =
      decodeFrom state bs ++ some (Char.ofNat b.toNat) :: decodeFrom none rest := by
  obtain ⟨out, state', hstate', hsplit⟩ := exists_decodeFrom_append hstate bs
  have hbs : decodeFrom state bs = out ++ decodeFrom state' [] := by
    rw [← hsplit, List.append_nil]
  rw [hsplit, hbs, decodeFrom_cons, step_of_ascii hstate' hb]
  simp

theorem exists_of_mem_decodeFrom (hstate : Ready state) {bs : List UInt8} {c : Char}
    (hc : c.toNat < 0x80) (hmem : some c ∈ decodeFrom state bs) : ∃ b ∈ bs, b.toNat = c.toNat := by
  induction bs generalizing state with
  | nil => cases state <;> simp [decodeFrom] at hmem
  | cons b bs ih =>
    rw [decodeFrom_cons, List.mem_append] at hmem
    rcases hmem with hmem | hmem
    · exact ⟨b, List.mem_cons_self, toNat_of_mem_step hstate hc hmem⟩
    · obtain ⟨a, ha, hac⟩ := ih (ready_step hstate b) hmem
      exact ⟨a, List.mem_cons_of_mem b ha, hac⟩

/-- A byte that brings nothing yet leaves a sequence under way. -/
theorem step_progress (state : Option Sequence) (b : UInt8) :
    (step state b).1 ≠ [] ∨ (step state b).2 ≠ none := by
  cases state with
  | none => exact (brings_start b).progress
  | some q =>
    rw [step]
    split_ifs <;> simp

/-- No bytes are passed over in silence. -/
theorem decodeFrom_eq_nil {bs : List UInt8} (h : decodeFrom state bs = []) :
    state = none ∧ bs = [] := by
  induction bs generalizing state with
  | nil =>
    cases state with
    | none => exact ⟨rfl, rfl⟩
    | some q => cases h
  | cons b bs ih =>
    rw [decodeFrom_cons, List.append_eq_nil_iff] at h
    have hnone := (ih h.2).1
    rcases step_progress state b with hout | hstate
    · exact absurd h.1 hout
    · exact absurd hnone hstate

/-! ## Decoded texts -/

/-- A byte and the character that it stands for by itself. -/
structure Ascii (a : UInt8) (c : Char) : Prop where
  same : a.toNat = c.toNat
  small : c.toNat < 0x80

theorem ascii_feed : Ascii 0x0A '\n' := ⟨rfl, by decide⟩

theorem ascii_return : Ascii 0x0D '\r' := ⟨rfl, by decide⟩

theorem decodeLossy_eq_nil_iff {bs : List UInt8} : decodeLossy bs = [] ↔ bs = [] := by
  constructor
  · intro h
    exact (decodeFrom_eq_nil (List.map_eq_nil_iff.1 h)).2
  · rintro rfl
    rfl

section

variable {a : UInt8} {c : Char} (hac : Ascii a c)

include hac

theorem decodeLossy_append (bs rest : List UInt8) :
    decodeLossy (bs ++ a :: rest) = decodeLossy bs ++ c :: decodeLossy rest := by
  have ha : a.toNat < 0x80 := hac.same ▸ hac.small
  unfold decodeLossy decode
  rw [decodeFrom_append_ascii ready_none ha, List.map_append, List.map_cons, hac.same,
    Char.ofNat_toNat]
  rfl

/-- The replacement character is not ASCII. -/
theorem mem_of_mem_replaced {os : List (Option Char)} (h : c ∈ os.map (·.getD replacement)) :
    some c ∈ os := by
  obtain ⟨o, ho, hc⟩ := List.mem_map.1 h
  cases o with
  | some d => exact hc ▸ ho
  | none =>
    have hsmall := hac.small
    rw [← hc] at hsmall
    exact absurd hsmall (by decide)

theorem mem_of_mem_decodeFrom {state : Option Sequence} (hstate : Ready state) {bs : List UInt8}
    (h : c ∈ (decodeFrom state bs).map (·.getD replacement)) : a ∈ bs := by
  obtain ⟨b, hb, hbc⟩ :=
    exists_of_mem_decodeFrom hstate hac.small (mem_of_mem_replaced hac h)
  rwa [← UInt8.toNat_inj.1 (hbc.trans hac.same.symm)]

theorem mem_decodeLossy_iff {bs : List UInt8} : c ∈ decodeLossy bs ↔ a ∈ bs := by
  constructor
  · intro h
    exact mem_of_mem_decodeFrom hac ready_none h
  · intro h
    obtain ⟨l, rest, rfl⟩ := List.append_of_mem h
    rw [decodeLossy_append hac]
    simp

theorem getLast?_decodeLossy_iff {bs : List UInt8} :
    (decodeLossy bs).getLast? = some c ↔ bs.getLast? = some a := by
  constructor
  · intro h
    rcases List.eq_nil_or_concat bs with rfl | ⟨l, b, rfl⟩
    · cases h
    · -- What the last byte brings is not nothing, so the last character is from there.
      obtain ⟨out, state, hstate, hsplit⟩ := exists_decodeFrom_append ready_none l
      have hne : (decodeFrom state [b]).map (·.getD replacement) ≠ [] := by
        intro hnil
        cases (decodeFrom_eq_nil (List.map_eq_nil_iff.1 hnil)).2
      rw [decodeLossy, decode, List.concat_eq_append, hsplit, List.map_append,
        List.getLast?_append_of_ne_nil _ hne] at h
      have hab := mem_of_mem_decodeFrom hac hstate (List.mem_of_getLast? h)
      rw [List.mem_singleton.1 hab, List.concat_eq_append, List.getLast?_concat]
  · intro h
    obtain ⟨l, rfl⟩ := List.getLast?_eq_some_iff.1 h
    rw [decodeLossy_append hac]
    exact List.getLast?_concat

end

/-! ## Lines of bytes -/

/-- The lines of a byte string: it is cut after every feed, and one carriage return before the feed goes
with it. -/
def byteLines (bs : List UInt8) : List (List UInt8) :=
  (cutAfter 0x0A bs).map (chomp 0x0A 0x0D)

theorem cutAfter_decodeLossy (bs : List UInt8) :
    cutAfter '\n' (decodeLossy bs) = (cutAfter 0x0A bs).map decodeLossy := by
  -- The induction is on the number of bytes: it goes on behind the first feed.
  induction hn : bs.length using Nat.strongRecOn generalizing bs with
  | ind n ih =>
    by_cases hfeed : 0x0A ∈ bs
    · obtain ⟨l, rest, rfl, hl⟩ := List.eq_append_cons_of_mem hfeed
      have hl' : '\n' ∉ decodeLossy l := mt (mem_decodeLossy_iff ascii_feed).1 hl
      have hrest := ih rest.length (by rw [← hn, List.length_append, List.length_cons]; omega) rest rfl
      rw [decodeLossy_append ascii_feed, cutAfter_append hl', cutAfter_append hl, hrest, List.map_cons,
        decodeLossy_append ascii_feed l []]
      rfl
    · by_cases hnil : bs = []
      · rw [hnil]
        rfl
      · rw [cutAfter_of_not_mem hfeed hnil,
          cutAfter_of_not_mem (mt (mem_decodeLossy_iff ascii_feed).1 hfeed)
            (mt decodeLossy_eq_nil_iff.1 hnil)]
        rfl

theorem chomp_decodeLossy (piece : List UInt8) :
    chomp '\n' '\r' (decodeLossy piece) = decodeLossy (chomp 0x0A 0x0D piece) := by
  by_cases hfeed : piece.getLast? = some 0x0A
  · obtain ⟨l, rfl⟩ := List.getLast?_eq_some_iff.1 hfeed
    rw [decodeLossy_append ascii_feed l [], show decodeLossy [] = [] from rfl, chomp_append_feed,
      chomp_append_feed]
    by_cases hreturn : l.getLast? = some 0x0D
    · rw [if_pos hreturn, if_pos ((getLast?_decodeLossy_iff ascii_return).2 hreturn)]
      obtain ⟨l, rfl⟩ := List.getLast?_eq_some_iff.1 hreturn
      rw [decodeLossy_append ascii_return l [], List.dropLast_concat]
      exact List.dropLast_concat
    · rw [if_neg hreturn, if_neg (mt (getLast?_decodeLossy_iff ascii_return).1 hreturn)]
  · rw [chomp, chomp, if_neg hfeed, if_neg (mt (getLast?_decodeLossy_iff ascii_feed).1 hfeed)]

/-- Cutting into lines and decoding can change places. -/
theorem lines_decodeLossy (bs : List UInt8) : lines (decodeLossy bs) = (byteLines bs).map decodeLossy := by
  unfold lines byteLines
  rw [cutAfter_decodeLossy, List.map_map, List.map_map]
  exact List.map_congr_left fun piece _ => chomp_decodeLossy piece

theorem decodeLossy_encode (s : Text) : decodeLossy (encode s) = s := by
  rw [decodeLossy, decode_encode, List.map_map]
  exact List.map_id s

/-- Two lists of one length that differ at most at one place. -/
structure SameBut {α : Type} (k : Nat) (xs ys : List α) : Prop where
  length : xs.length = ys.length
  elsewhere : ∀ i, i ≠ k → xs[i]? = ys[i]?

theorem SameBut.map {α β : Type} {k : Nat} {xs ys : List α} (h : SameBut k xs ys) (f : α → β) :
    SameBut k (xs.map f) (ys.map f) := by
  refine ⟨by rw [List.length_map, List.length_map, h.length], fun i hi => ?_⟩
  rw [List.getElem?_map, List.getElem?_map, h.elsewhere i hi]

/-- **Ill-formed bytes damage only their own line.** The lines of a decoded source are its byte lines, each
decoded by itself, and so the blocks are found in these; well-formed bytes are decoded without loss; and
two sources whose byte lines differ only in line `k` have decoded lines that differ at most there. -/
theorem decodeLossy_linewise :
    (∀ bs, lines (decodeLossy bs) = (byteLines bs).map decodeLossy) ∧
    (∀ (m : Markers) (bs : List UInt8), Block.parse m (decodeLossy bs) =
      Block.parseFrom m none ((byteLines bs).map fun line => trimStart (decodeLossy line))) ∧
    (∀ s, decodeLossy (encode s) = s) ∧
    ∀ k as bs, SameBut k (byteLines as) (byteLines bs) →
      SameBut k (lines (decodeLossy as)) (lines (decodeLossy bs)) := by
  refine ⟨lines_decodeLossy, fun m bs => ?_, decodeLossy_encode, fun k as bs h => ?_⟩
  · rw [Block.parse, lines_decodeLossy, List.map_map]
    rfl
  · rw [lines_decodeLossy, lines_decodeLossy]
    exact h.map decodeLossy

/-- Three lines, the second of which breaks off in a sequence of four bytes, before its line end. -/
def truncated : List UInt8 :=
  [0x61, 0x0A, 0xF0, 0x9F, 0x98, 0x0D, 0x0A, 0xC3, 0xA9, 0x0A]

/-- The same lines with the sequence completed. -/
def mended : List UInt8 :=
  [0x61, 0x0A, 0xF0, 0x9F, 0x98, 0x80, 0x0D, 0x0A, 0xC3, 0xA9, 0x0A]

theorem decodeLossy_linewise_truncated :
    lines (decodeLossy truncated) = [['a'], ['\uFFFD'], ['é']] ∧
      SameBut 1 (byteLines truncated) (byteLines mended) ∧
      SameBut 1 (lines (decodeLossy truncated)) (lines (decodeLossy mended)) := by
  have htruncated : byteLines truncated = [[0x61], [0xF0, 0x9F, 0x98], [0xC3, 0xA9]] := by decide
  have hmended : byteLines mended = [[0x61], [0xF0, 0x9F, 0x98, 0x80], [0xC3, 0xA9]] := by decide
  have hsame : SameBut 1 (byteLines truncated) (byteLines mended) := by
    rw [htruncated, hmended]
    refine ⟨rfl, fun i hi => ?_⟩
    match i with
    | 0 => rfl
    | 1 => exact absurd rfl hi
    | _ + 2 => rfl
  exact ⟨by decide +kernel, hsame, decodeLossy_linewise.2.2.2 1 truncated mended hsame⟩

end Docblocks.Text.Utf8
