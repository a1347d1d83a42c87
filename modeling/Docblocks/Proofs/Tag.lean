/-
# Docblocks.Proofs.Tag — what the tag reader finds, by places and by backtracking.

`Tag.parse?` recurses over a text and never goes back.  This module gives the same tag in two other
ways.  By places: `Marked`, `Slash` and `Good` speak about the numbers of characters in the whole text,
and the tag is the one of the leftmost good place, cut at the last slash that counts.  By backtracking:
`expression` is the tag as a regular expression, whose three greedy repetitions may each give characters
back.  Giving back blanks never helps, since a slash is no blank and a line feed given back ends the line
even earlier; so the first try is the only one that can succeed.
-/
import Docblocks.Tag
import Docblocks.Proofs.Text
import Docblocks.Proofs.Text.Regex

namespace Docblocks.Tag

/-! ## Places in a text -/

/-- The word of a tag stands at `i`, and the blanks behind it, at least one, reach up to `j`. -/
structure Marked (s : Text) (i j : Nat) : Prop where
  start : word <+: s.drop i
  nonempty : i + word.length < j
  blanks : ∀ k, i + word.length ≤ k → k < j → ∃ c, s[k]? = some c ∧ Text.isBlank c = true
  maximal : ∀ c, s[j]? = some c → Text.isBlank c = false

/-- A slash stands at `m`, at or behind `j` and before the first line feed there. -/
structure Slash (s : Text) (j m : Nat) : Prop where
  le : j ≤ m
  slash : s[m]? = some '/'
  line : ∀ k, j ≤ k → k < m → s[k]? ≠ some '\n'

/-- The last slash at or behind `j` that stands before the first line feed there. -/
structure LastSlash (s : Text) (j m : Nat) : Prop extends Slash s j m where
  last : ∀ n, Slash s j n → n ≤ m

/-- The word at `i` is followed by blanks, and behind them by a slash on the same line. -/
def Good (s : Text) (i : Nat) : Prop :=
  ∃ j m, Marked s i j ∧ Slash s j m

/-- The leftmost good place. -/
structure Leftmost (s : Text) (i : Nat) : Prop where
  good : Good s i
  first : ∀ k, k < i → ¬ Good s k

/-! ## The reader by places -/

theorem marked_iff {s : Text} {i j : Nat} :
    Marked s i j ↔ ∃ rest, s.drop i = word ++ rest ∧ rest.takeWhile Text.isBlank ≠ [] ∧
      j = i + word.length + (rest.takeWhile Text.isBlank).length := by
  -- Places behind the word are places of what follows it.
  have hplace : ∀ {rest : Text}, s.drop i = word ++ rest →
      ∀ k, s[i + word.length + k]? = rest[k]? := by
    intro rest hrest k
    rw [Nat.add_assoc, ← List.getElem?_drop, hrest, List.getElem?_append_right (by omega),
      Nat.add_sub_cancel_left]
  constructor
  · rintro ⟨⟨rest, hrest⟩, hj, hblanks, hmax⟩
    obtain ⟨n, rfl⟩ : ∃ n, j = i + word.length + n := ⟨j - (i + word.length), by omega⟩
    have hlen : (rest.takeWhile Text.isBlank).length = n := by
      refine Text.length_takeWhile_eq_iff.2 ⟨fun k hk => ?_, fun c hc => hmax c ?_⟩
      · obtain ⟨c, hc, hblank⟩ := hblanks (i + word.length + k) (by omega) (by omega)
        exact ⟨c, (hplace hrest.symm k).symm.trans hc, hblank⟩
      · exact (hplace hrest.symm n).trans hc
    refine ⟨rest, hrest.symm, fun hnil => ?_, by rw [hlen]⟩
    rw [hnil, List.length_nil] at hlen
    omega
  · rintro ⟨rest, hrest, hne, rfl⟩
    obtain ⟨hblanks, hmax⟩ :=
      Text.length_takeWhile_eq_iff.1 (Eq.refl (rest.takeWhile Text.isBlank).length)
    have hpos := List.length_pos_iff.2 hne
    refine ⟨⟨rest, hrest.symm⟩, by omega, fun k hk hkj => ?_, fun c hc => hmax c ?_⟩
    · obtain ⟨c, hc, hblank⟩ := hblanks (k - (i + word.length)) (by omega)
      refine ⟨c, ?_, hblank⟩
      rw [← hc, ← hplace hrest]
      congr 1
      omega
    · exact (hplace hrest _).symm.trans hc

/-- The blanks behind the word are dropped. -/
theorem Marked.drop_eq {s : Text} {i j : Nat} (h : Marked s i j) :
    ∃ rest, s.drop i = word ++ rest ∧ rest.takeWhile Text.isBlank ≠ [] ∧
      s.drop j = Text.trimStart rest := by
  obtain ⟨rest, hrest, hne, rfl⟩ := marked_iff.1 h
  refine ⟨rest, hrest, hne, ?_⟩
  rw [Nat.add_assoc, ← List.drop_drop, hrest, ← List.drop_drop, List.drop_left]
  calc rest.drop (rest.takeWhile Text.isBlank).length
      = (rest.takeWhile Text.isBlank ++ rest.dropWhile Text.isBlank).drop
          (rest.takeWhile Text.isBlank).length := by rw [List.takeWhile_append_dropWhile]
    _ = Text.trimStart rest := List.drop_left

theorem slash_iff {s : Text} {j n : Nat} :
    Slash s j (j + n) ↔ ((s.drop j).takeWhile (· != '\n'))[n]? = some '/' := by
  rw [Text.getElem?_takeWhile_eq_some_iff, List.getElem?_drop]
  constructor
  · rintro ⟨-, hslash, hline⟩
    refine ⟨hslash, fun k hk d hd => bne_iff_ne.2 ?_⟩
    rintro rfl
    rw [List.getElem?_drop] at hd
    rcases Nat.lt_or_eq_of_le hk with hlt | rfl
    · exact hline (j + k) (by omega) (by omega) hd
    · rw [hslash] at hd
      cases hd
  · rintro ⟨hslash, hline⟩
    refine ⟨by omega, hslash, fun k hjk hk hfeed => ?_⟩
    have hne := hline (k - j) (by omega) '\n' (by
      rw [List.getElem?_drop, show j + (k - j) = k by omega, hfeed])
    cases hne

theorem LastSlash.unique {s : Text} {j m n : Nat} (hm : LastSlash s j m) (hn : LastSlash s j n) :
    m = n :=
  Nat.le_antisymm (hn.last m hm.toSlash) (hm.last n hn.toSlash)

/-- The cut of the line is at its last slash. -/
theorem lastSlash_of_cutLast? {s path key : Text} {j : Nat}
    (h : Text.cutLast? '/' ((s.drop j).takeWhile (· != '\n')) = some (path, key)) :
    LastSlash s j (j + path.length) := by
  have hline := Text.eq_of_cutLast? h
  have hkey := Text.not_mem_of_cutLast? h
  refine ⟨slash_iff.2 (by simp [hline]), fun n hn => ?_⟩
  obtain ⟨k, rfl⟩ : ∃ k, n = j + k := ⟨n - j, by have := hn.le; omega⟩
  have hk := slash_iff.1 hn
  rw [hline] at hk
  rcases Nat.lt_or_ge path.length k with hlt | hge
  · rw [List.getElem?_append_right (by omega), List.getElem?_cons,
      if_neg (by omega)] at hk
    exact absurd (List.mem_of_getElem? hk) hkey
  · omega

theorem exists_cutLast?_of_slash {s : Text} {j m : Nat} (h : Slash s j m) :
    ∃ path key, Text.cutLast? '/' ((s.drop j).takeWhile (· != '\n')) = some (path, key) := by
  obtain ⟨n, rfl⟩ : ∃ n, m = j + n := ⟨m - j, by have := h.le; omega⟩
  have hmem : '/' ∈ (s.drop j).takeWhile (· != '\n') := List.mem_of_getElem? (slash_iff.1 h)
  cases hcut : Text.cutLast? '/' ((s.drop j).takeWhile (· != '\n')) with
  | none => exact absurd hmem (Text.cutLast?_eq_none_iff.1 hcut)
  | some parts => exact ⟨parts.1, parts.2, rfl⟩

/-- The tag that starts at `j` and is cut at the slash at `m`. -/
def cut (s : Text) (j m : Nat) : Tag :=
  ⟨(s.take m).drop j, (s.drop (m + 1)).takeWhile (· != '/')⟩

theorem body?_of_cutLast? {s path key : Text} {j : Nat}
    (h : Text.cutLast? '/' ((s.drop j).takeWhile (· != '\n')) = some (path, key)) :
    body? (s.drop j) = some (cut s j (j + path.length)) := by
  have hdrop : s.drop j = path ++ '/' :: (key ++ (s.drop j).dropWhile (· != '\n')) := by
    have hsplit := List.takeWhile_append_dropWhile (p := (· != '\n')) (l := s.drop j)
    rw [Text.eq_of_cutLast? h] at hsplit
    simpa using hsplit.symm
  have hpath : (s.take (j + path.length)).drop j = path := by
    rw [List.drop_take, Nat.add_sub_cancel_left, hdrop, List.take_left]
  have hrest : s.drop (j + path.length + 1) = key ++ (s.drop j).dropWhile (· != '\n') := by
    calc s.drop (j + path.length + 1)
        = (s.drop j).drop (path.length + 1) := by rw [List.drop_drop, Nat.add_assoc]
      _ = (path ++ '/' :: (key ++ (s.drop j).dropWhile (· != '\n'))).drop (path.length + 1) :=
          congrArg (List.drop (path.length + 1)) hdrop
      _ = key ++ (s.drop j).dropWhile (· != '\n') := by simp
  rw [body?, h, cut, hpath, hrest]
  rfl

/-- Behind the blanks the reader takes the tag that is cut at the last slash of the line. -/
theorem body?_eq_some_iff {s : Text} {j : Nat} {t : Tag} :
    body? (s.drop j) = some t ↔ ∃ m, LastSlash s j m ∧ t = cut s j m := by
  constructor
  · intro h
    cases hcut : Text.cutLast? '/' ((s.drop j).takeWhile (· != '\n')) with
    | none => simp [body?, hcut] at h
    | some parts =>
      rw [body?_of_cutLast? hcut, Option.some.injEq] at h
      exact ⟨_, lastSlash_of_cutLast? hcut, h.symm⟩
  · rintro ⟨m, hm, rfl⟩
    obtain ⟨path, key, hcut⟩ := exists_cutLast?_of_slash hm.toSlash
    rw [hm.unique (lastSlash_of_cutLast? hcut)]
    exact body?_of_cutLast? hcut

theorem here?_eq_some_iff {s : Text} {t : Tag} :
    here? s = some t ↔ ∃ rest, s = word ++ rest ∧ rest.takeWhile Text.isBlank ≠ [] ∧
      body? (Text.trimStart rest) = some t := by
  unfold here?
  cases hafter : Text.after? word s with
  | none =>
    constructor
    · intro h
      cases h
    · rintro ⟨rest, rfl, -⟩
      rw [Text.after?_append] at hafter
      cases hafter
  | some rest =>
    obtain rfl := Text.after?_eq_some_iff.1 hafter
    cases rest with
    | nil => simp
    | cons c r => cases hc : Text.isBlank c <;> simp [hc]

/-- The reader at one place. -/
theorem here?_drop_eq_some_iff {s : Text} {i : Nat} {t : Tag} :
    here? (s.drop i) = some t ↔ ∃ j m, Marked s i j ∧ LastSlash s j m ∧ t = cut s j m := by
  rw [here?_eq_some_iff]
  constructor
  · rintro ⟨rest, hrest, hne, hbody⟩
    have hmarked : Marked s i _ := marked_iff.2 ⟨rest, hrest, hne, rfl⟩
    obtain ⟨rest', hrest', -, hdrop⟩ := hmarked.drop_eq
    obtain rfl : rest' = rest := List.append_cancel_left (hrest'.symm.trans hrest)
    rw [← hdrop] at hbody
    obtain ⟨m, hm, ht⟩ := body?_eq_some_iff.1 hbody
    exact ⟨_, m, hmarked, hm, ht⟩
  · rintro ⟨j, m, hmarked, hm, ht⟩
    obtain ⟨rest, hrest, hne, hdrop⟩ := hmarked.drop_eq
    refine ⟨rest, hrest, hne, ?_⟩
    rw [← hdrop]
    exact body?_eq_some_iff.2 ⟨m, hm, ht⟩

theorem here?_drop_eq_none_iff {s : Text} {i : Nat} : here? (s.drop i) = none ↔ ¬ Good s i := by
  constructor
  · rintro hnone ⟨j, m, hmarked, hslash⟩
    obtain ⟨path, key, hcut⟩ := exists_cutLast?_of_slash hslash
    have hsome := here?_drop_eq_some_iff.2 ⟨j, _, hmarked, lastSlash_of_cutLast? hcut, rfl⟩
    rw [hnone] at hsome
    cases hsome
  · intro hbad
    cases hhere : here? (s.drop i) with
    | none => rfl
    | some t =>
      obtain ⟨j, m, hmarked, hm, -⟩ := here?_drop_eq_some_iff.1 hhere
      exact absurd ⟨j, m, hmarked, hm.toSlash⟩ hbad

/-- The reader tries one place after the other. -/
theorem parse?_eq_findSome? (s : Text) : parse? s = s.tails.findSome? here? := by
  induction s with
  | nil => rfl
  | cons c s ih =>
    rw [parse?, ih, List.tails_cons, List.findSome?_cons]
    cases here? (c :: s) <;> rfl

theorem parse?_eq_some_iff {s : Text} {t : Tag} :
    parse? s = some t ↔
      ∃ i j m, Leftmost s i ∧ Marked s i j ∧ LastSlash s j m ∧ t = cut s j m := by
  rw [parse?_eq_findSome?, Text.findSome?_tails_eq_some_iff rfl]
  constructor
  · rintro ⟨i, hi, hfirst⟩
    obtain ⟨j, m, hmarked, hm, ht⟩ := here?_drop_eq_some_iff.1 hi
    exact ⟨i, j, m, ⟨⟨j, m, hmarked, hm.toSlash⟩,
      fun k hk => here?_drop_eq_none_iff.1 (hfirst k hk)⟩, hmarked, hm, ht⟩
  · rintro ⟨i, j, m, hleft, hmarked, hm, ht⟩
    exact ⟨i, here?_drop_eq_some_iff.2 ⟨j, m, hmarked, hm, ht⟩,
      fun k hk => here?_drop_eq_none_iff.2 (hleft.first k hk)⟩

theorem parse?_eq_none_iff_here? {s : Text} :
    parse? s = none ↔ ∀ i, here? (s.drop i) = none := by
  rw [parse?_eq_findSome?, List.findSome?_eq_none_iff]
  refine ⟨fun hall i => hall _ ((List.mem_tails _ _).2 (List.drop_suffix i s)), fun hall v hv => ?_⟩
  rw [List.suffix_iff_eq_drop.1 ((List.mem_tails _ _).1 hv)]
  exact hall _

/-- A text that does not hold the word has no tag. -/
theorem parse?_eq_none_of_no_word {s : Text} (h : ¬ word <:+: s) : parse? s = none := by
  rw [parse?_eq_none_iff_here?]
  intro i
  cases hhere : here? (s.drop i) with
  | none => rfl
  | some t =>
    obtain ⟨rest, hrest, -⟩ := here?_eq_some_iff.1 hhere
    have hword : word <+: s.drop i := ⟨rest, hrest.symm⟩
    exact absurd (hword.isInfix.trans (List.drop_suffix i s).isInfix) h

/-- On one line the key is what follows the last slash. -/
theorem order_of_parse? {s : Text} {t : Tag} (hfeed : '\n' ∉ s) (h : parse? s = some t) :
    ∃ u, s = u ++ '/' :: t.order ∧ '/' ∉ t.order := by
  obtain ⟨i, j, m, -, -, hm, rfl⟩ := parse?_eq_some_iff.1 h
  have hnone : '/' ∉ s.drop (m + 1) := by
    intro hmem
    obtain ⟨k, hk⟩ := List.mem_iff_getElem?.1 hmem
    rw [List.getElem?_drop] at hk
    have hle := hm.last (m + 1 + k)
      ⟨by have := hm.le; omega, hk, fun n _ _ hn => hfeed (List.mem_of_getElem? hn)⟩
    omega
  have horder : (cut s j m).order = s.drop (m + 1) :=
    List.takeWhile_eq_self_iff.2 fun c hc => bne_iff_ne.2 fun hcs => hnone (hcs ▸ hc)
  obtain ⟨hlt, hslash⟩ := List.getElem?_eq_some_iff.1 hm.slash
  refine ⟨s.take m, ?_, horder ▸ hnone⟩
  rw [horder, ← hslash, ← List.drop_eq_getElem_cons hlt, List.take_append_drop]

/-! ## The reader by backtracking -/

/-- What follows the blanks: `(.*)/([^/]*)`. -/
def bodyExpression : Regex :=
  .seq (.group (.many (· != '\n'))) (.seq (.text ['/']) (.group (.many (· != '/'))))

/-- The tag as an expression: `@scratch\s+(.*)/([^/]*)`. -/
def expression : Regex :=
  .seq (.text word) (.seq (.one Text.isBlank) (.seq (.many Text.isBlank) bodyExpression))

/-- The path gives back up to the last slash of its line, and the key gives back nothing. -/
theorem captures?_bodyExpression (s : Text) :
    bodyExpression.captures? s = (body? s).map fun t => [t.path, t.order] := by
  have hbehind : ∀ v : Text,
      (Regex.seq (.text ['/']) (.group (.many (· != '/')))).captures? v =
        (Text.after? ['/'] v).map fun w => [w.takeWhile (· != '/')] := by
    intro v
    rw [Regex.captures?_text_seq]
    cases Text.after? ['/'] v with
    | none => rfl
    | some w => exact Regex.captures?_group_many _ w
  calc bodyExpression.captures? s
      = (Regex.runs (· != '\n') s).findSome? fun r =>
          ((Text.after? ['/'] r.2).map fun w => [w.takeWhile (· != '/')]).map (r.1 :: ·) := by
        rw [bodyExpression, Regex.captures?_group_many_seq]
        simp only [hbehind]
    _ = ((Regex.runs (· != '\n') s).findSome? fun r =>
          (Text.after? ['/'] r.2).map fun w => (r.1, w)).map
            fun r => [r.1, r.2.takeWhile (· != '/')] := by
        rw [List.map_findSome?]
        simp only [Function.comp_def, Option.map_map]
    _ = (body? s).map fun t => [t.path, t.order] := by
        rw [Regex.findSome?_runs_cutLast rfl, body?, Option.map_map, Option.map_map]
        rfl

/-- A line without a slash stays without one when blanks are put in front of it. -/
theorem body?_blanks_append {u s : Text} (hu : Text.Blank u)
    (hs : body? s = none) : body? (u ++ s) = none := by
  have hslash : '/' ∉ u := by
    intro hmem
    cases hu '/' hmem
  simp only [body?, Option.map_eq_none_iff, Text.cutLast?_eq_none_iff] at hs ⊢
  rw [List.takeWhile_append]
  split
  · simp [hslash, hs]
  -- A line feed among the blanks ends the line before anything else.
  · exact fun hmem => hslash ((List.takeWhile_prefix _).subset hmem)

theorem captures?_expression (s : Text) :
    expression.captures? s = (here? s).map fun t => [t.path, t.order] := by
  rw [expression, Regex.captures?_text_seq, here?]
  cases Text.after? word s with
  | none => rfl
  | some rest =>
    rw [Option.bind_some]
    cases rest with
    | nil => rw [Regex.captures?_one_seq_nil]; rfl
    | cons c r =>
      rw [Regex.captures?_one_seq_cons]
      show _ = Option.map _ (if Text.isBlank c then body? (Text.trimStart (c :: r)) else none)
      cases hc : Text.isBlank c with
      | false => rfl
      | true =>
        have hgive : bodyExpression.captures? (r.dropWhile Text.isBlank) = none →
            ∀ u, Text.Blank u →
              bodyExpression.captures? (u ++ r.dropWhile Text.isBlank) = none := by
          intro hnone u hu
          rw [captures?_bodyExpression, Option.map_eq_none_iff] at hnone ⊢
          exact body?_blanks_append hu hnone
        rw [if_pos rfl, if_pos rfl, Regex.captures?_many_seq, Regex.findSome?_runs _ hgive,
          captures?_bodyExpression, Text.trimStart_cons_blank hc, Text.trimStart]

/-- Wherever the reader looks, the engine looks, and both find the same. -/
theorem search?_expression (s : Text) :
    (expression.search? s).map Regex.Way.groups =
      (parse? s).map fun t => [t.path, t.order] := by
  have hplace : (fun v => (expression.first? v).map Regex.Way.groups) =
      fun v => (here? v).map fun t => [t.path, t.order] :=
    funext captures?_expression
  rw [Regex.search?_eq_findSome?, parse?_eq_findSome?, List.map_findSome?, List.map_findSome?]
  exact congrArg (List.findSome? · s.tails) hplace

/-! ## The tag of a text -/

/-- **The tag of a text.** It has none exactly when no place is good.  Otherwise the tag is that of the
leftmost good place: the path reaches from the end of the blanks to the last slash of that line, and the
key from there to the next slash or the end of the text.  On one line, which is all that the block reader
ever asks about, the key is everything behind the last slash.  The tag is also what the expression
`@scratch\s+(.*)/([^/]*)` captures, on any text. -/
theorem parse?_reads_leftmost (s : Text) :
    (parse? s = none ↔ ∀ i, ¬ Good s i) ∧
    (∀ t, parse? s = some t ↔ ∃ i j m, Leftmost s i ∧ Marked s i j ∧ LastSlash s j m ∧
      t = ⟨(s.take m).drop j, (s.drop (m + 1)).takeWhile (· != '/')⟩) ∧
    ('\n' ∉ s → ∀ t, parse? s = some t → ∃ u, s = u ++ '/' :: t.order ∧ '/' ∉ t.order) ∧
    (∀ (opening source line : Text), line ∈ (Text.lines source).map Text.trimStart →
      Text.after? opening line = some s → '\n' ∉ s) ∧
    (expression.search? s).map Regex.Way.groups =
      (parse? s).map fun t => [t.path, t.order] := by
  refine ⟨?_, fun t => parse?_eq_some_iff, fun hfeed t => order_of_parse? hfeed, ?_,
    search?_expression s⟩
  · rw [parse?_eq_none_iff_here?]
    exact forall_congr' fun i => here?_drop_eq_none_iff
  · intro opening source line hline hafter hmem
    obtain ⟨l, hl, rfl⟩ := List.mem_map.1 hline
    apply Text.not_mem_of_mem_lines hl
    apply (List.dropWhile_suffix Text.isBlank).subset
    rw [show l.dropWhile Text.isBlank = opening ++ s from Text.after?_eq_some_iff.1 hafter]
    exact List.mem_append_right opening hmem

/-- Three words compete on a line of a source: the first has no blank behind it, and the third belongs to
the path of the second. -/
theorem parse?_reads_leftmost_nestedWord :
    let s := " @scratch/x @scratch a/@scratch b/1 2".toList
    let line := "/**".toList ++ s
    let source := "x\n  ".toList ++ line ++ "\r\n".toList
    line ∈ (Text.lines source).map Text.trimStart ∧ Text.after? "/**".toList line = some s ∧
      parse? s = some ⟨"a/@scratch b".toList, "1 2".toList⟩ ∧
      ∃ u, s = u ++ '/' :: "1 2".toList ∧ '/' ∉ "1 2".toList := by
  intro s line source
  have hline : line ∈ (Text.lines source).map Text.trimStart := by decide
  have hafter : Text.after? "/**".toList line = some s := by decide
  have htag : parse? s = some ⟨"a/@scratch b".toList, "1 2".toList⟩ := by decide
  have hfeed : '\n' ∉ s := (parse?_reads_leftmost s).2.2.2.1 _ source line hline hafter
  exact ⟨hline, hafter, htag, (parse?_reads_leftmost s).2.2.1 hfeed _ htag⟩

end Docblocks.Tag
