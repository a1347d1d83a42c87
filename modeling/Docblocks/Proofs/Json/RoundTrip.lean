/-
# Docblocks.Proofs.Json.RoundTrip — what is written as JSON is read back.

`Reads item text node` says that the reader `item` finds the complete value `node` in `text` and leaves
whatever follows.  Written strings and truth values are read so at any depth.  A written list is read so
one level up from its items (`reads_array`), and a written object from the values of its members
(`reads_object`).  Lists and objects are both sequences with commas: `read_written` goes along a sequence
once for both, from what it takes to read one element (`Element`).
-/
import Docblocks.Json.Printer
import Docblocks.Json.Reader
import Mathlib.Data.List.Basic

namespace Docblocks.Json

/-! ## Strings -/

theorem readString_quote (rest : Text) : readString ('"' :: rest) = .ok ([], rest) := by
  rw [readString.eq_def]
  simp only [if_true]

theorem readString_plain {c : Char} (hquote : c ≠ '"') (hslash : c ≠ '\\') (hcontrol : 0x20 ≤ c.toNat)
    (s : Text) : readString (c :: s) = push c (readString s) := by
  rw [readString.eq_def]
  simp only [if_neg hquote, if_neg hslash, if_neg (Nat.not_lt.2 hcontrol)]

theorem readString_letter {e d : Char} (he : e ≠ 'u') (hd : escaped? e = some d) (s : Text) :
    readString ('\\' :: e :: s) = push d (readString s) := by
  rw [readString.eq_def]
  simp only [Char.reduceEq, if_false, if_true, if_neg he, hd]

theorem hexDigit?_digitChar {n : Nat} (h : n < 16) : hexDigit? (Nat.digitChar n) = some n := by
  have hall : ∀ n < 16, hexDigit? (Nat.digitChar n) = some n := by decide
  exact hall n h

/-- The number of a control character in four digits. -/
theorem readString_number {n : Nat} (h : n < 0x20) (s : Text) :
    readString ('\\' :: 'u' :: '0' :: '0' :: Nat.digitChar (n / 16) :: Nat.digitChar (n % 16) :: s) =
      push (Char.ofNat n) (readString s) := by
  have hhex : hex4? '0' '0' (Nat.digitChar (n / 16)) (Nat.digitChar (n % 16)) = some n := by
    have hzero : hexDigit? '0' = some 0 := rfl
    have hvalue : ((0 * 16 + 0) * 16 + n / 16) * 16 + n % 16 = n := by omega
    simp only [hex4?, hzero, hexDigit?_digitChar (show n / 16 < 16 by omega),
      hexDigit?_digitChar (show n % 16 < 16 by omega), Option.bind_eq_bind, Option.bind_some, hvalue]
    rfl
  have hlow : isLow n = false := by
    simp only [isLow, Bool.and_eq_false_iff, decide_eq_false_iff_not]
    omega
  have hhigh : isHigh n = false := by
    simp only [isHigh, Bool.and_eq_false_iff, decide_eq_false_iff_not]
    omega
  rw [readString, if_neg (by decide), if_pos rfl]
  simp only [if_true, hhex, hlow, hhigh, Bool.false_eq_true, if_false]

/-- A written character is read as itself, whatever comes behind it. -/
theorem readString_escapeChar (c : Char) (s : Text) :
    readString (escapeChar c ++ s) = push c (readString s) := by
  unfold escapeChar
  split_ifs with hquote hslash hb ht hn hf hr hcontrol
  · rw [hquote]
    exact readString_letter (by decide) rfl s
  · rw [hslash]
    exact readString_letter (by decide) rfl s
  · rw [hb]
    exact readString_letter (by decide) rfl s
  · rw [ht]
    exact readString_letter (by decide) rfl s
  · rw [hn]
    exact readString_letter (by decide) rfl s
  · rw [hf]
    exact readString_letter (by decide) rfl s
  · rw [hr]
    exact readString_letter (by decide) rfl s
  · have hread := readString_number hcontrol s
    rw [Char.ofNat_toNat] at hread
    exact hread
  · exact readString_plain hquote hslash (Nat.not_lt.1 hcontrol) s

theorem readString_written (s rest : Text) :
    readString (s.flatMap escapeChar ++ '"' :: rest) = .ok (s, rest) := by
  induction s with
  | nil => exact readString_quote rest
  | cons c s ih =>
    rw [List.flatMap_cons, List.append_assoc, readString_escapeChar, ih]
    rfl

theorem writeString_append (s rest : Text) :
    writeString s ++ rest = '"' :: (s.flatMap escapeChar ++ '"' :: rest) := by
  simp [writeString]

/-! ## Values -/

/-- The reader finds a complete value in a text and leaves what follows.  Nothing is skipped in front of
it, and it is not mistaken for the end of a list. -/
structure Reads (item : Text → Node × Text) (text : Text) (node : Node) : Prop where
  complete : node.stop? = none
  starts : ∃ c s, text = c :: s ∧ isBlank c = false ∧ c ≠ ']'
  read : ∀ rest, item (text ++ rest) = (node, rest)

theorem skipBlanks_cons {c : Char} (h : isBlank c = false) (s : Text) : skipBlanks (c :: s) = c :: s := by
  simp [skipBlanks, h]

theorem reads_string (item : Option (Text → Node × Text)) (s : Text) :
    Reads (readValue item) (writeString s) (.string s) := by
  refine ⟨rfl, ⟨'"', s.flatMap escapeChar ++ ['"'], rfl, by decide, by decide⟩, ?_⟩
  intro rest
  have hquote : skipBlanks ('"' :: (s.flatMap escapeChar ++ '"' :: rest)) =
      '"' :: (s.flatMap escapeChar ++ '"' :: rest) := skipBlanks_cons (by decide) _
  rw [writeString_append, readValue, hquote]
  show ofScalar Node.string (readString (s.flatMap escapeChar ++ '"' :: rest)) = _
  rw [readString_written]
  rfl

theorem reads_bool (item : Option (Text → Node × Text)) (b : Bool) :
    Reads (readValue item) (writeBool b) (.bool b) := by
  cases b with
  | true => exact ⟨rfl, ⟨'t', ['r', 'u', 'e'], rfl, by decide, by decide⟩, fun _ => rfl⟩
  | false => exact ⟨rfl, ⟨'f', ['a', 'l', 's', 'e'], rfl, by decide, by decide⟩, fun _ => rfl⟩

/-! ## Lists and objects -/

theorem readValue_bracket (item : Text → Node × Text) (s : Text) :
    readValue (some item) ('[' :: s) =
      (.array (readItems item (s.length + 1) true s).1 (readItems item (s.length + 1) true s).2.1,
        (readItems item (s.length + 1) true s).2.2) := by
  have hdigit : '['.isDigit = false := by decide
  rw [readValue, skipBlanks_cons (by decide)]
  simp only [Char.reduceEq, hdigit, Bool.false_eq_true, if_false, if_true]

theorem readValue_brace (item : Text → Node × Text) (s : Text) :
    readValue (some item) ('\x7b' :: s) =
      (.object (readMembers item (s.length + 1) true s).1 (readMembers item (s.length + 1) true s).2.1,
        (readMembers item (s.length + 1) true s).2.2) := by
  have hdigit : '\x7b'.isDigit = false := by decide
  rw [readValue, skipBlanks_cons (by decide)]
  simp only [Char.reduceEq, hdigit, Bool.false_eq_true, if_false, if_true]

section Sequences

variable {α β : Type} {read : Nat → Bool → Text → List β × Option Fault × Text} {close : Char}
  {write : α → Text} {value : α → β}

/-- What was read of a sequence, with one more element in front. -/
def prepend (b : β) (r : List β × Option Fault × Text) : List β × Option Fault × Text :=
  (b :: r.1, r.2)

/-- A reader of sequences takes the text for one element, at the start and behind a comma. -/
structure Element (read : Nat → Bool → Text → List β × Option Fault × Text) (text : Text) (b : β) :
    Prop where
  first : ∀ fuel rest, read (fuel + 1) true (text ++ rest) = prepend b (read fuel false rest)
  next : ∀ fuel rest, read (fuel + 1) false (',' :: (text ++ rest)) = prepend b (read fuel false rest)

theorem intercalate_cons (x : Text) (xs : List Text) :
    List.intercalate [','] (x :: xs) = x ++ xs.flatMap (',' :: ·) := by
  induction xs generalizing x with
  | nil => simp [List.intercalate]
  | cons y xs ih =>
    have hstep : List.intercalate [','] (x :: y :: xs) = x ++ ',' :: List.intercalate [','] (y :: xs) := by
      simp [List.intercalate]
    rw [hstep, ih, List.flatMap_cons]
    rfl

/-- There are no more elements than characters. -/
theorem length_le_intercalate (xs : List Text) :
    xs.length ≤ (List.intercalate [','] xs).length + 1 := by
  cases xs with
  | nil => exact Nat.zero_le _
  | cons x xs =>
    have hcommas : xs.length ≤ (xs.flatMap (',' :: ·)).length := by
      induction xs with
      | nil => exact Nat.le_refl _
      | cons y xs ih =>
        rw [List.flatMap_cons, List.length_append, List.length_cons, List.length_cons]
        omega
    rw [intercalate_cons, List.length_append, List.length_cons]
    omega

/-- The elements behind the first one, up to the end of their sequence. -/
theorem read_rest (hclose : ∀ fuel first rest, read (fuel + 1) first (close :: rest) = ([], none, rest))
    {xs : List α} (h : ∀ a ∈ xs, Element read (write a) (value a)) {fuel : Nat}
    (hfuel : xs.length < fuel) (rest : Text) :
    read fuel false ((xs.map write).flatMap (',' :: ·) ++ close :: rest) =
      (xs.map value, none, rest) := by
  induction xs generalizing fuel with
  | nil =>
    obtain ⟨fuel, rfl⟩ : ∃ k, fuel = k + 1 := ⟨fuel - 1, by omega⟩
    exact hclose fuel false rest
  | cons a xs ih =>
    rw [List.length_cons] at hfuel
    obtain ⟨fuel, rfl⟩ : ∃ k, fuel = k + 1 := ⟨fuel - 1, by omega⟩
    have htail := ih (fun b hb => h b (List.mem_cons_of_mem _ hb)) (show xs.length < fuel by omega)
    rw [List.map_cons, List.flatMap_cons, List.append_assoc, List.cons_append,
      (h a List.mem_cons_self).next, htail]
    rfl

/-- The elements of a written sequence, up to its end: the first one, and then the rest. -/
theorem read_written
    (hclose : ∀ fuel first rest, read (fuel + 1) first (close :: rest) = ([], none, rest))
    {xs : List α} (h : ∀ a ∈ xs, Element read (write a) (value a)) (rest : Text) :
    read ((List.intercalate [','] (xs.map write) ++ close :: rest).length + 1) true
        (List.intercalate [','] (xs.map write) ++ close :: rest) = (xs.map value, none, rest) := by
  cases xs with
  | nil => exact hclose _ true rest
  | cons a xs =>
    have hlength := length_le_intercalate ((a :: xs).map write)
    rw [List.length_map, List.length_cons] at hlength
    have htail := read_rest hclose (fun b hb => h b (List.mem_cons_of_mem _ hb))
      (show xs.length < (List.intercalate [','] ((a :: xs).map write) ++ close :: rest).length by
        rw [List.length_append, List.length_cons]
        omega) rest
    generalize (List.intercalate [','] ((a :: xs).map write) ++ close :: rest).length = fuel at htail ⊢
    rw [List.map_cons, intercalate_cons, List.append_assoc, (h a List.mem_cons_self).first, htail]
    rfl

end Sequences

section Nested

variable {α : Type} {item : Text → Node × Text} {text : Text} {node : Node}

theorem readItems_close (fuel : Nat) (first : Bool) (rest : Text) :
    readItems item (fuel + 1) first (']' :: rest) = ([], none, rest) := by
  rw [readItems, skipBlanks_cons (by decide)]
  rfl

theorem element_item (h : Reads item text node) : Element (readItems item) text node := by
  obtain ⟨c, s, rfl, hblank, hclose⟩ := h.starts
  have hread : ∀ rest, item (c :: (s ++ rest)) = (node, rest) := h.read
  refine ⟨?_, ?_⟩
  · intro fuel rest
    rw [List.cons_append, readItems, skipBlanks_cons hblank]
    simp only [if_neg hclose, if_true, hread, h.complete]
    rfl
  · intro fuel rest
    rw [List.cons_append, readItems, skipBlanks_cons (by decide)]
    simp only [Char.reduceEq, Bool.false_eq_true, if_false, if_true, skipBlanks_cons hblank,
      if_neg hclose, hread, h.complete]
    rfl

theorem reads_array {write : α → Text} {value : α → Node} {xs : List α}
    (h : ∀ a ∈ xs, Reads item (write a) (value a)) :
    Reads (readValue (some item)) (writeArray (xs.map write)) (.array (xs.map value) none) := by
  refine ⟨rfl, ⟨'[', _, rfl, by decide, by decide⟩, ?_⟩
  intro rest
  have hitems := read_written readItems_close (fun a ha => element_item (h a ha)) rest
  rw [writeArray, List.cons_append, List.cons_append, List.append_assoc, List.singleton_append,
    readValue_bracket, hitems]

theorem readMembers_close (fuel : Nat) (first : Bool) (rest : Text) :
    readMembers item (fuel + 1) first ('\x7d' :: rest) = ([], none, rest) := by
  rw [readMembers, skipBlanks_cons (by decide)]
  rfl

theorem element_member (h : Reads item text node) (name : Text) :
    Element (readMembers item) (writeString name ++ ':' :: text) (name, node) := by
  have hname : ∀ rest, writeString name ++ ':' :: text ++ rest =
      '"' :: (name.flatMap escapeChar ++ '"' :: ':' :: (text ++ rest)) := by
    intro rest
    rw [List.append_assoc, writeString_append, List.cons_append]
  have hvalue : ∀ rest, readMemberValue item (':' :: (text ++ rest)) = (node, rest) := by
    intro rest
    rw [readMemberValue, skipBlanks_cons (by decide)]
    exact h.read rest
  refine ⟨?_, ?_⟩
  · intro fuel rest
    rw [hname, readMembers, skipBlanks_cons (by decide)]
    simp only [Char.reduceEq, if_false, if_true, readString_written, hvalue, h.complete]
    rfl
  · intro fuel rest
    rw [hname, readMembers, skipBlanks_cons (by decide)]
    simp only [Char.reduceEq, Bool.false_eq_true, if_false, if_true,
      skipBlanks_cons (show isBlank '"' = false by decide), readString_written, hvalue, h.complete]
    rfl

theorem reads_object {name : α → Text} {write : α → Text} {value : α → Node} {xs : List α}
    (h : ∀ a ∈ xs, Reads item (write a) (value a)) :
    Reads (readValue (some item)) (writeObject (xs.map fun a => (name a, write a)))
      (.object (xs.map fun a => (name a, value a)) none) := by
  refine ⟨rfl, ⟨'\x7b', _, rfl, by decide, by decide⟩, ?_⟩
  intro rest
  have hmembers := read_written readMembers_close (fun a ha => element_member (h a ha) (name a)) rest
  rw [writeObject, List.map_map, List.cons_append, List.cons_append, List.append_assoc,
    List.singleton_append, readValue_brace]
  exact congrArg (fun r => (Node.object r.1 r.2.1, r.2.2)) hmembers

end Nested

end Docblocks.Json
