/-
# Docblocks.Proofs.Layout — what the layout of a source does not change.

A source is laid out in rows: lines, each with its ending.  The block reader drops the leading blanks of
a line, so indentation cannot matter; it sees a line of blanks as an empty one, on which no mark can
stand; and a carriage return before a feed belongs to neither line.  `parse_relaid` puts the three
together for sources that differ in any of these at once.  The only trap is a carriage return at the end
of a line, which is a blank and is taken for a part of the ending: a line that is all blank stays empty
either way, and no other line may end in one.

`parse_append_closing` is about the end of a source: a closing line there is worth as much as the end.
-/
import Docblocks.Proofs.BlockStructure
import Docblocks.Proofs.Tag

namespace Docblocks

/-! ## Rows -/

/-- How a row ends. -/
inductive Ending
  | feed
  | returnFeed
  deriving DecidableEq, Repr

/-- The characters of an ending. -/
def Ending.text : Ending → Text
  | .feed => ['\n']
  | .returnFeed => ['\r', '\n']

/-- A row of a source: a line, and how it ends. -/
structure Row where
  line : Text
  ending : Ending
  no_feed : '\n' ∉ line

namespace Row

/-- The source text of rows. -/
def source (rows : List Row) : Text :=
  rows.flatMap fun r => r.line ++ r.ending.text

/-- Two lines that differ in the blanks they start with. -/
def Reindented (a b : Text) : Prop :=
  ∃ w v l, Text.Blank w ∧ Text.Blank v ∧ a = w ++ l ∧ b = v ++ l

/-- Two layouts of the same source: rows may change their endings and the blanks they start with, and
rows of blanks may come and go. -/
inductive Relaid : List Row → List Row → Prop
  | nil : Relaid [] []
  | row {a b : Row} {rows rows' : List Row} :
      Reindented a.line b.line → Relaid rows rows' → Relaid (a :: rows) (b :: rows')
  | insert {b : Row} {rows rows' : List Row} :
      Text.Blank b.line → Relaid rows rows' → Relaid rows (b :: rows')
  | delete {a : Row} {rows rows' : List Row} :
      Text.Blank a.line → Relaid rows rows' → Relaid (a :: rows) rows'

/-- A row whose line is seen whole, up to blanks, whatever its ending. -/
def Firm (r : Row) : Prop :=
  r.line.getLast? ≠ some '\r' ∨ Text.Blank r.line

theorem Firm.reindented {a b : Row} (ha : a.Firm) (h : Reindented a.line b.line) : b.Firm := by
  obtain ⟨w, v, l, hw, hv, hal, hbl⟩ := h
  cases l with
  | nil => exact Or.inr (by rw [hbl, List.append_nil]; exact hv)
  | cons c l =>
    have hend : b.line.getLast? = a.line.getLast? := by
      simp [hal, hbl, List.getLast?_append, List.getLast?_cons]
    rcases ha with ha | ha
    · exact Or.inl (hend ▸ ha)
    · refine Or.inr fun d hd => ?_
      rw [hbl, List.mem_append] at hd
      rcases hd with hd | hd
      · exact hv d hd
      · exact ha d (by rw [hal]; exact List.mem_append_right w hd)

theorem Reindented.trimStart_eq {a b : Text} (h : Reindented a b) :
    Text.trimStart b = Text.trimStart a := by
  obtain ⟨w, v, l, hw, hv, rfl, rfl⟩ := h
  rw [hw.trimStart_append, hv.trimStart_append]

/-- A carriage return that is taken for a part of the ending is a blank of a blank line. -/
theorem Firm.trimStart_chomp {r : Row} (hr : r.Firm) :
    Text.trimStart (Text.chomp '\n' '\r' (r.line ++ ['\n'])) = Text.trimStart r.line := by
  rw [Text.chomp_append_feed]
  split
  · next hreturn =>
    have hblank : Text.Blank r.line := hr.resolve_left (not_not_intro hreturn)
    have hshorter : Text.Blank r.line.dropLast :=
      fun c hc => hblank c (List.dropLast_subset r.line hc)
    rw [Text.trimStart_eq_nil_iff.2 hshorter, Text.trimStart_eq_nil_iff.2 hblank]
  · rfl

/-- The lines of a source as the reader sees them. -/
def seen (rows : List Row) : List Text :=
  (Text.lines (source rows)).map Text.trimStart

theorem seen_cons {r : Row} (hr : r.Firm) (rows : List Row) :
    seen (r :: rows) = Text.trimStart r.line :: seen rows := by
  cases hending : r.ending with
  | feed =>
    have hsource : source (r :: rows) = r.line ++ '\n' :: source rows := by
      simp [source, hending, Ending.text]
    rw [seen, hsource, Text.lines_append_feed r.no_feed, List.map_cons, hr.trimStart_chomp, seen]
  | returnFeed =>
    have hsource : source (r :: rows) = (r.line ++ ['\r']) ++ '\n' :: source rows := by
      simp [source, hending, Ending.text]
    have hfeed : '\n' ∉ r.line ++ ['\r'] := by simpa using r.no_feed
    have hline : Text.chomp '\n' '\r' ((r.line ++ ['\r']) ++ ['\n']) = r.line := by
      rw [Text.chomp_append_feed, List.dropLast_concat, if_pos (by simp)]
    rw [seen, hsource, Text.lines_append_feed hfeed, hline, List.map_cons, seen]

/-- What is seen of two layouts differs in empty lines only. -/
theorem Relaid.filter_seen {rows rows' : List Row} (h : Relaid rows rows')
    (hrows : ∀ r ∈ rows, r.Firm) :
    (seen rows').filter (· ≠ []) = (seen rows).filter (· ≠ []) := by
  induction h with
  | nil => rfl
  | @row a b rows rows' hab _ ih =>
    have ha : a.Firm := hrows a List.mem_cons_self
    have htail := ih fun r hr => hrows r (List.mem_cons_of_mem a hr)
    rw [seen_cons ha, seen_cons (ha.reindented hab), hab.trimStart_eq, List.filter_cons,
      List.filter_cons, htail]
  | @insert b rows rows' hb _ ih =>
    rw [seen_cons (Or.inr hb), Text.trimStart_eq_nil_iff.2 hb, List.filter_cons_of_neg (by simp)]
    exact ih hrows
  | @delete a rows rows' ha _ ih =>
    rw [seen_cons (Or.inr ha), Text.trimStart_eq_nil_iff.2 ha, List.filter_cons_of_neg (by simp)]
    exact ih fun r hr => hrows r (List.mem_cons_of_mem a hr)

end Row

namespace Block

theorem after?_nil_of_ne {mark : Text} (h : mark ≠ []) : Text.after? mark [] = none := by
  cases mark with
  | nil => exact absurd rfl h
  | cons c mark => rfl

/-- No mark stands on an empty line, so it changes nothing in either state. -/
theorem step_nil {m : Markers} (hopening : m.opening ≠ []) (hclosing : m.closing ≠ [])
    (hline : m.line ≠ []) (state : Option Fragment) : step m state [] = (none, state) := by
  cases state with
  | none => simp [step, open?, after?_nil_of_ne hopening]
  | some f =>
    simp [step, Text.startsWith, capture, after?_nil_of_ne hclosing, after?_nil_of_ne hline]

theorem parseFrom_filter {m : Markers} (hopening : m.opening ≠ []) (hclosing : m.closing ≠ [])
    (hline : m.line ≠ []) (state : Option Fragment) (ls : List Text) :
    parseFrom m state (ls.filter (· ≠ [])) = parseFrom m state ls := by
  induction ls generalizing state with
  | nil => rfl
  | cons l ls ih =>
    by_cases hl : l = []
    · rw [List.filter_cons_of_neg (by simp [hl]), ih, hl, parseFrom,
        step_nil hopening hclosing hline]
      rfl
    · rw [List.filter_cons_of_pos (by simp [hl]), parseFrom, ih, parseFrom]

/-- **Layout does not matter.** With marks that are not empty, a source whose lines do not end in a
carriage return gives the same fragments in every layout. -/
theorem parse_relaid {m : Markers} (hopening : m.opening ≠ []) (hclosing : m.closing ≠ [])
    (hline : m.line ≠ []) {rows rows' : List Row}
    (hrows : ∀ r ∈ rows, r.line.getLast? ≠ some '\r') (h : Row.Relaid rows rows') :
    parse m (Row.source rows') = parse m (Row.source rows) := by
  show parseFrom m none (Row.seen rows') = parseFrom m none (Row.seen rows)
  rw [← parseFrom_filter hopening hclosing hline, ← parseFrom_filter hopening hclosing hline none
    (Row.seen rows), h.filter_seen fun r hr => Or.inl (hrows r hr)]

/-- A block indented by tabs with carriage returns, against one with a row of blanks inside that ends in
a carriage return of its own. -/
theorem parse_relaid_looseBlock :
    let tight : List Row :=
      [⟨"\t/** @scratch a/1".toList, .returnFeed, by decide⟩, ⟨"\t* x".toList, .feed, by decide⟩,
        ⟨"".toList, .feed, by decide⟩, ⟨"*/".toList, .returnFeed, by decide⟩]
    let loose : List Row :=
      [⟨"/** @scratch a/1".toList, .feed, by decide⟩, ⟨" \r".toList, .feed, by decide⟩,
        ⟨"  * x".toList, .returnFeed, by decide⟩, ⟨"\r*/".toList, .feed, by decide⟩]
    Row.Relaid tight loose ∧
      parse {} (Row.source loose) = parse {} (Row.source tight) ∧
      parse {} (Row.source tight) = [⟨"a".toList, "1".toList, ⟨["x\n".toList]⟩⟩] := by
  intro tight loose
  have h : Row.Relaid tight loose := by
    refine .row ⟨"\t".toList, [], "/** @scratch a/1".toList, by decide, by decide, rfl, rfl⟩ ?_
    refine .insert (by decide) ?_
    refine .row ⟨"\t".toList, "  ".toList, "* x".toList, by decide, by decide, rfl, rfl⟩ ?_
    refine .delete (by decide) ?_
    exact .row ⟨[], "\r".toList, "*/".toList, by decide, by decide, rfl, rfl⟩ .nil
  exact ⟨h, parse_relaid (by decide) (by decide) (by decide) (by decide) h, by decide⟩

/-! ## The end of a source -/

/-- A closing line without a tag closes the block that is open, or is passed over; either way what comes
before it is read as if it were all. -/
theorem parseFrom_append_closing {m : Markers} (hclosing : tag? m m.closing = none)
    (state : Option Fragment) (xs ys : List Text) :
    parseFrom m state (xs ++ m.closing :: ys) = parseFrom m state xs ++ parseFrom m none ys := by
  induction xs generalizing state with
  | nil =>
    cases state with
    | none => simp [parseFrom, step, open?_eq, hclosing]
    | some f => simp [parseFrom, step]
  | cons x xs ih =>
    rw [List.cons_append, parseFrom, ih, parseFrom, List.append_assoc]

theorem tag?_eq_none_of_no_word {m : Markers} {line : Text} (h : ¬ Tag.word <:+: line) :
    tag? m line = none := by
  rw [tag?, Option.bind_eq_none_iff]
  intro rest hrest
  apply Tag.parse?_eq_none_of_no_word
  intro hword
  apply h
  rw [Text.after?_eq_some_iff.1 hrest]
  exact hword.trans (List.suffix_append m.opening rest).isInfix

/-- **A closing line is worth as much as the end.** A source that is cut at a closing line, which stands
on a line of its own and holds no tag, has the fragments of what comes before it, a block left open there
included, and then those of what comes behind it. -/
theorem parse_append_closing {m : Markers} (hsolid : Text.Solid m.closing)
    (hfeed : '\n' ∉ m.closing) (hreturn : m.closing.getLast? ≠ some '\r')
    (hword : ¬ Tag.word <:+: m.closing) {a : Text} (ha : a = [] ∨ a.getLast? = some '\n')
    (b : Text) :
    parse m (a ++ m.closing ++ '\n' :: b) = parse m a ++ parse m b := by
  have hlines : (Text.lines (a ++ m.closing ++ '\n' :: b)).map Text.trimStart =
      (Text.lines a).map Text.trimStart ++
        m.closing :: (Text.lines b).map Text.trimStart := by
    rw [List.append_assoc, Text.lines_append_of_ended ha, Text.lines_append hfeed hreturn,
      List.map_append, List.map_cons, hsolid.trimStart_eq]
  rw [parse, hlines, parseFrom_append_closing (tag?_eq_none_of_no_word hword)]
  rfl

/-- The closing mark starts with the opening mark and with the line mark, and the first part leaves its
block open. -/
theorem parse_append_closing_overlapping :
    let m : Markers := { opening := "#".toList, closing := "##".toList, line := "#".toList }
    let a := "# @scratch a/1\n# x\n".toList
    let b := "# @scratch a/2\n".toList
    parse m (a ++ m.closing ++ '\n' :: b) = parse m a ++ parse m b ∧
      (parse m a).length = 1 ∧ (parse m b).length = 1 :=
  ⟨parse_append_closing ⟨_, _, rfl, by decide⟩ (by decide) (by decide) (by decide)
    (Or.inr (by decide)) _, by decide, by decide⟩

end Block

end Docblocks
