/-
# Docblocks.Proofs.Store.Shape — what the entries of a store built from sources look like.

Whatever the marks, a line of a source holds no feed, and neither does anything the block reader takes from
it: the path begins behind the blanks of its tag, the key stands behind the last slash, and cleaning a line
only drops characters.  `Fragment.Neat` says this of one fragment; it holds of the block in hand through
every line (`neat_step`), so of every fragment of a source, and adding neat fragments keeps a store neat
(`Store.Neat.append`).  Nothing is lost when a neat store is put into text: a path and a key can be told
apart again, and so can the lines of a document.
-/
import Docblocks.Proofs.Markers
import Docblocks.Proofs.Store.History
import Docblocks.Proofs.Tag

namespace Docblocks

/-! ## Neat entries -/

/-- A path on one line that does not begin with a blank. -/
structure NeatPath (path : Text) : Prop where
  no_feed : '\n' ∉ path
  head : ∀ c ∈ path.head?, Text.isBlank c = false

/-- An order key on one line without a slash. -/
structure NeatOrder (order : Text) : Prop where
  no_slash : '/' ∉ order
  no_feed : '\n' ∉ order

/-- Every line of the chunk holds one feed, as its last character. -/
def Chunk.Neat (chunk : Chunk) : Prop :=
  ∀ line ∈ chunk.lines, ∃ l, '\n' ∉ l ∧ line = l ++ ['\n']

/-- A fragment as the block reader makes it. -/
structure Fragment.Neat (f : Fragment) : Prop where
  path : NeatPath f.path
  order : NeatOrder f.order
  chunk : f.chunk.Neat

/-- All that a store holds is neat. -/
def Store.Neat (s : Store) : Prop :=
  ∀ path document, (path, document) ∈ s.documents → NeatPath path ∧
    ∀ order chunks, (order, chunks) ∈ document → NeatOrder order ∧ ∀ chunk ∈ chunks, chunk.Neat

/-! ## Reading a line -/

/-- On one line, a tag is neat. -/
theorem Tag.neat_of_parse? {s : Text} {t : Tag} (hfeed : '\n' ∉ s) (h : parse? s = some t) :
    NeatPath t.path ∧ NeatOrder t.order := by
  obtain ⟨i, j, m, -, hmarked, -, rfl⟩ := parse?_eq_some_iff.1 h
  refine ⟨⟨fun hmem => hfeed ?_, fun c hc => ?_⟩, ⟨fun hmem => ?_, fun hmem => hfeed ?_⟩⟩
  · exact List.mem_of_mem_take (List.mem_of_mem_drop hmem)
  · -- The path begins where the blanks end.
    rw [Option.mem_def, cut, List.head?_drop, List.getElem?_take] at hc
    split at hc
    · exact hmarked.maximal c hc
    · cases hc
  · simpa using List.mem_takeWhile_imp hmem
  · exact List.mem_of_mem_drop ((List.takeWhile_prefix _).subset hmem)

namespace Block

variable {m : Markers} {line : Text} (hfeed : '\n' ∉ line)

include hfeed

theorem not_mem_of_after? {mark rest : Text} (h : Text.after? mark line = some rest) :
    '\n' ∉ rest := by
  intro hmem
  apply hfeed
  rw [Text.after?_eq_some_iff.1 h]
  exact List.mem_append_right mark hmem

theorem neat_open? {f : Fragment} (h : open? m line = some f) : f.Neat := by
  obtain ⟨t, htag, rfl⟩ := Option.map_eq_some_iff.1 h
  obtain ⟨rest, hafter, hparse⟩ := Option.bind_eq_some_iff.1 htag
  obtain ⟨hpath, horder⟩ := Tag.neat_of_parse? (not_mem_of_after? hfeed hafter) hparse
  exact ⟨hpath, horder, by simp [Chunk.Neat, Fragment.ofTag]⟩

theorem neat_capture {f : Fragment} (hf : f.Neat) : (capture m f line).Neat := by
  unfold capture
  cases hafter : Text.after? m.line line with
  | none => exact hf
  | some rest =>
    refine ⟨hf.path, hf.order, fun line' hline' => ?_⟩
    rcases List.mem_append.1 hline' with hold | hnew
    · exact hf.chunk line' hold
    · refine ⟨m.clean rest, fun hmem => ?_, List.mem_singleton.1 hnew⟩
      exact not_mem_of_after? hfeed hafter ((m.clean_sublist rest).subset hmem)

/-- One line: what it completes is neat, and so is the block that is then open. -/
theorem neat_step {state : Option Fragment} (hstate : ∀ f ∈ state, f.Neat) :
    (∀ f ∈ (step m state line).1, f.Neat) ∧ ∀ f ∈ (step m state line).2, f.Neat := by
  cases state with
  | none => exact ⟨by simp [step], fun f hf => neat_open? hfeed hf⟩
  | some g =>
    have hg := hstate g rfl
    by_cases hclose : Text.startsWith m.closing line = true
    · simpa [step, hclose] using hg
    · simpa [step, hclose] using neat_capture hfeed hg

end Block

theorem Block.neat_parseFrom {m : Markers} {state : Option Fragment} {ls : List Text}
    (hstate : ∀ f ∈ state, f.Neat) (hfeed : ∀ line ∈ ls, '\n' ∉ line) :
    ∀ f ∈ parseFrom m state ls, f.Neat := by
  induction ls generalizing state with
  | nil =>
    intro f hf
    exact hstate f (Option.mem_toList.1 hf)
  | cons line ls ih =>
    obtain ⟨hdone, hopen⟩ := neat_step (m := m) (hfeed line List.mem_cons_self) hstate
    intro f hf
    rcases List.mem_append.1 hf with hf | hf
    · exact hdone f (Option.mem_toList.1 hf)
    · exact ih hopen (fun line hline => hfeed line (List.mem_cons_of_mem _ hline)) f hf

/-- Whatever the marks and the source, its fragments are neat. -/
theorem Block.neat_parse (m : Markers) (source : Text) : ∀ f ∈ parse m source, f.Neat := by
  apply neat_parseFrom (by simp)
  intro line hline
  obtain ⟨l, hl, rfl⟩ := List.mem_map.1 hline
  intro hmem
  exact Text.not_mem_of_mem_lines hl ((List.dropWhile_suffix _).subset hmem)

/-! ## Filling a store -/

/-- What holds of all entries goes on to hold when one is altered, if it holds of a new entry and altering
keeps it. -/
theorem Keyed.forall_alter {α : Type} {P : Text → α → Prop} {m : Keyed α} {key : Text}
    {f : Option α → α} (hm : ∀ k a, (k, a) ∈ m → P k a) (hnew : P key (f none))
    (hkeep : ∀ a, P key a → P key (f (some a))) : ∀ k a, (k, a) ∈ m.alter key f → P k a := by
  induction m with
  | nil =>
    intro k a hmem
    cases List.mem_singleton.1 hmem
    exact hnew
  | cons p m ih =>
    obtain ⟨k', a'⟩ := p
    have hhead := hm k' a' List.mem_cons_self
    have htail : ∀ k a, (k, a) ∈ m → P k a := fun k a h => hm k a (List.mem_cons_of_mem _ h)
    intro k a hmem
    rw [alter] at hmem
    cases horder : Text.order key k' with
    | lt =>
      rw [horder] at hmem
      rcases List.mem_cons.1 hmem with heq | hmem
      · cases heq
        exact hnew
      · exact hm k a hmem
    | eq =>
      obtain rfl := Text.order_eq_eq_iff.1 horder
      rw [horder] at hmem
      rcases List.mem_cons.1 hmem with heq | hmem
      · cases heq
        exact hkeep a' hhead
      · exact htail k a hmem
    | gt =>
      rw [horder] at hmem
      rcases List.mem_cons.1 hmem with heq | hmem
      · cases heq
        exact hhead
      · exact ih htail k a hmem

namespace Store

variable {s : Store}

theorem neat_empty : Neat {} := by
  simp [Neat]

theorem Neat.append (hs : s.Neat) {f : Fragment} (hf : f.Neat) : (s.append f).Neat := by
  -- The document of the fragment's path, new or old, with one more chunk.
  have hdocument : ∀ document : Keyed (List Chunk),
      (∀ order chunks, (order, chunks) ∈ document → NeatOrder order ∧ ∀ chunk ∈ chunks, chunk.Neat) →
      ∀ order chunks,
        (order, chunks) ∈ document.alter f.order (fun chunks => chunks.getD [] ++ [f.chunk]) →
        NeatOrder order ∧ ∀ chunk ∈ chunks, chunk.Neat := by
    intro document hdocument
    refine Keyed.forall_alter hdocument ⟨hf.order, ?_⟩ fun chunks hchunks => ⟨hf.order, ?_⟩
    · intro chunk hchunk
      rw [List.mem_singleton.1 hchunk]
      exact hf.chunk
    · intro chunk hchunk
      rcases List.mem_append.1 hchunk with hold | hnew
      · exact hchunks.2 chunk hold
      · rw [List.mem_singleton.1 hnew]
        exact hf.chunk
  refine Keyed.forall_alter hs ⟨hf.path, ?_⟩ fun document hold => ⟨hf.path, ?_⟩
  · exact hdocument [] (by simp)
  · exact hdocument document hold.2

theorem Neat.appendAll (hs : s.Neat) {fs : List Fragment} (hfs : ∀ f ∈ fs, f.Neat) :
    (s.appendAll fs).Neat := by
  induction fs generalizing s with
  | nil => exact hs
  | cons f fs ih =>
    exact ih (hs.append (hfs f List.mem_cons_self)) fun g hg => hfs g (List.mem_cons_of_mem _ hg)

theorem neat_addAll (m : Markers) (sources : List Text) :
    (addAll {} (sources.map (.source m))).Neat := by
  rw [addAll_eq]
  refine neat_empty.appendAll fun f hf => ?_
  obtain ⟨addition, haddition, hf⟩ := List.mem_flatMap.1 hf
  obtain ⟨source, _, rfl⟩ := List.mem_map.1 haddition
  exact Block.neat_parse m source f hf

/-! ## Telling a store from its text -/

theorem Neat.chunks (hs : s.Neat) (hordered : s.Ordered) {path : Text} :
    ∀ chunk ∈ s.chunks path, chunk.Neat := by
  intro chunk h
  unfold Store.chunks at h
  cases hget : s.documents.get? path with
  | none =>
    rw [hget] at h
    cases h
  | some document =>
    have hmem := (Keyed.get?_eq_some_iff hordered.paths.nodup).1 hget
    rw [hget, Option.getD_some] at h
    obtain ⟨chunks, hchunks, hchunk⟩ := List.mem_flatten.1 h
    obtain ⟨p, hp, rfl⟩ := List.mem_map.1 hchunks
    exact ((hs path document hmem).2 p.1 p.2 hp).2 chunk hchunk

/-- **The shape of a store built from sources.** Whatever the marks and the sources, every path is on one
line and does not begin with a blank, every order key is on one line without a slash, and every line of a
chunk holds one feed, as its last character.  So a path and a key with a slash between them can be told
apart at the last slash, and the lines of a chunk, as those of a whole document, can be read back from its
text by cutting after every feed: there are as many lines as feeds. -/
theorem addAll_sources_neat (m : Markers) (sources : List Text) :
    let s := addAll {} (sources.map (.source m))
    s.Neat ∧
    (∀ path document, (path, document) ∈ s.documents → ∀ order chunks, (order, chunks) ∈ document →
      Text.cutLast? '/' (path ++ '/' :: order) = some (path, order) ∧
      ∀ chunk ∈ chunks, Text.cutAfter '\n' chunk.text = chunk.lines ∧
        chunk.text.count '\n' = chunk.lines.length) ∧
    ∀ path, Text.cutAfter '\n' (s.text path) = (s.chunks path).flatMap Chunk.lines ∧
      (s.text path).count '\n' = ((s.chunks path).flatMap Chunk.lines).length := by
  intro s
  have hs : s.Neat := neat_addAll m sources
  refine ⟨hs, fun path document hpath order chunks horder => ?_, fun path => ?_⟩
  · obtain ⟨hneat, hchunks⟩ := (hs path document hpath).2 order chunks horder
    refine ⟨Text.cutLast?_append hneat.no_slash path, fun chunk hchunk => ?_⟩
    exact ⟨Text.cutAfter_flatten (hchunks chunk hchunk), Text.count_flatten (hchunks chunk hchunk)⟩
  · have hlines : ∀ line ∈ (s.chunks path).flatMap Chunk.lines, ∃ l, '\n' ∉ l ∧ line = l ++ ['\n'] := by
      intro line hline
      obtain ⟨chunk, hchunk, hline⟩ := List.mem_flatMap.1 hline
      exact hs.chunks (ordered_addAll _) chunk hchunk line hline
    rw [text_eq_flatten]
    exact ⟨Text.cutAfter_flatten hlines, Text.count_flatten hlines⟩

end Store

end Docblocks
