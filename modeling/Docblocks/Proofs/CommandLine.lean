/-
# Docblocks.Proofs.CommandLine — options in any order, laid over the settings file.

A command line is a list of choices: options, each written by its letter or its long name and with its
values behind it.  Reading goes argument by argument and holds one option back, so that its values can
follow; the invariant `Ready` says that between two choices nothing is half read, whichever option is
held back, and that settling it gives what the choices so far say.  What they say is looked up by option
(`valuesOf`, `written`) and does not depend on how they are ordered, except that patterns keep their
order.  `run_overlays` ends in the settings of the run: each option replaces its setting and no other.
-/
import Docblocks.CommandLine.Run
import Mathlib.Data.List.TakeWhile

namespace Docblocks.CommandLine

/-! ## Choices -/

/-- An option as it is written on a command line. -/
structure Choice where
  flag : Flag
  /-- Whether its long name is written and not its letter. -/
  long : Bool := false
  /-- The arguments behind it. -/
  values : List Text := []
  deriving DecidableEq, Repr

namespace Choice

/-- The argument that names the option. -/
def name (c : Choice) : Text :=
  if c.long then c.flag.spelt else ['-', c.flag.short]

/-- All arguments of a choice. -/
def arguments (c : Choice) : List Text :=
  c.name :: c.values

/-- The values with which an option can be written: only a mark may look like an option, and only a
path may not be empty. -/
inductive Fits : Choice → Prop
  | output {long : Bool} {v : Text} (hne : v ≠ []) (hv : v.head? ≠ some '-') :
      Fits ⟨.output, long, [v]⟩
  | settings {long : Bool} {v : Text} (hne : v ≠ []) (hv : v.head? ≠ some '-') :
      Fits ⟨.settings, long, [v]⟩
  | pattern {long : Bool} {vs : List Text} (hne : vs ≠ []) (hv : ∀ v ∈ vs, v.head? ≠ some '-') :
      Fits ⟨.pattern, long, vs⟩
  | opening {long : Bool} (v : Text) : Fits ⟨.opening, long, [v]⟩
  | closing {long : Bool} (v : Text) : Fits ⟨.closing, long, [v]⟩
  | line {long : Bool} (v : Text) : Fits ⟨.line, long, [v]⟩
  | strip {long : Bool} (v : Text) : Fits ⟨.strip, long, [v]⟩
  | extension {long : Bool} {v : Text} (hv : v.head? ≠ some '-') : Fits ⟨.extension, long, [v]⟩
  | unslash {long : Bool} : Fits ⟨.unslash, long, []⟩

end Choice

/-- Whether an option is written. -/
def written (cs : List Choice) (f : Flag) : Bool :=
  cs.any (·.flag = f)

/-- The values of an option, in the order in which they are written. -/
def valuesOf (cs : List Choice) (f : Flag) : List Text :=
  (cs.filter (·.flag = f)).flatMap Choice.values

/-- Only patterns are written more than once. -/
def Once (cs : List Choice) : Prop :=
  cs.Pairwise fun c d => c.flag = d.flag → c.flag = .pattern

instance (cs : List Choice) : Decidable (Once cs) :=
  inferInstanceAs (Decidable (cs.Pairwise fun c d => c.flag = d.flag → c.flag = .pattern))

/-- The texts of the setting that an option is for; the switch and the options that are for no setting
have none. -/
def textsOf? (s : Settings) : Flag → Option (List Text)
  | .output => some [s.output]
  | .pattern => some s.patterns
  | .opening => some [s.markers.opening]
  | .closing => some [s.markers.closing]
  | .line => some [s.markers.line]
  | .strip => some [s.markers.strip]
  | .extension => some [s.extension]
  | .unslash | .settings | .help | .version => none

/-- The settings that choices are laid over. -/
def base (t : Tree) (cs : List Choice) : Except Error Settings :=
  match valuesOf cs .settings with
  | [] => .ok {}
  | file :: _ => Settings.load t file

/-- `s` is `b` with choices laid over it. -/
structure Overlaid (cs : List Choice) (b s : Settings) : Prop where
  /-- A setting whose option is written has the written values, and any other is kept. -/
  texts : ∀ f, textsOf? s f =
    (textsOf? b f).map fun old => if written cs f then valuesOf cs f else old
  /-- The switch can only be turned on. -/
  unslash : s.markers.unslash = (b.markers.unslash || written cs .unslash)

/-! ## What is given -/

namespace Given

/-- The texts that are given for an option. -/
def texts (g : Given) : Flag → List Text
  | .output => g.output?.toList
  | .pattern => g.patterns
  | .opening => g.opening?.toList
  | .closing => g.closing?.toList
  | .line => g.line?.toList
  | .strip => g.strip?.toList
  | .extension => g.extension?.toList
  | .settings => g.settings?.toList
  | .unslash | .help | .version => []

/-- `g` is what choices say. -/
structure Tells (g : Given) (cs : List Choice) : Prop where
  texts : ∀ f, g.texts f = valuesOf cs f
  unslash : g.unslash = written cs .unslash

end Given

theorem valuesOf_append (cs ds : List Choice) (f : Flag) :
    valuesOf (cs ++ ds) f = valuesOf cs f ++ valuesOf ds f := by
  simp [valuesOf]

theorem written_append (cs ds : List Choice) (f : Flag) :
    written (cs ++ ds) f = (written cs f || written ds f) := by
  simp [written]

theorem valuesOf_singleton (c : Choice) (f : Flag) :
    valuesOf [c] f = if c.flag = f then c.values else [] := by
  by_cases h : c.flag = f <;> simp [valuesOf, h]

theorem written_singleton (c : Choice) (f : Flag) : written [c] f = decide (c.flag = f) := by
  simp [written]

theorem valuesOf_eq_nil {cs : List Choice} {f : Flag} (h : written cs f = false) :
    valuesOf cs f = [] := by
  have hnone : cs.filter (·.flag = f) = [] := by
    rw [List.filter_eq_nil_iff]
    exact List.any_eq_false.1 h
  rw [valuesOf, hnone, List.flatMap_nil]

namespace Given

/-- An option that may come once is given when there is a text for it. -/
theorem has_eq_false {g : Given} {f : Flag} (htexts : g.texts f = [])
    (hunslash : f = .unslash → g.unslash = false) : g.has f = false := by
  cases f <;> simp_all [texts, has]

theorem texts_put_of_ne {g : Given} {v : Text} {f f' : Flag} (h : f ≠ f') :
    (g.put v f).texts f' = g.texts f' := by
  cases f <;> cases f' <;> simp_all [texts, put]

theorem texts_put_self {g : Given} {v : Text} {f : Flag} (hf : f.takes ≠ .nothing)
    (hfree : f ≠ .pattern → g.texts f = []) : (g.put v f).texts f = g.texts f ++ [v] := by
  cases f <;> simp_all [texts, put, Flag.takes]

theorem unslash_put {g : Given} {v : Text} {f : Flag} :
    (g.put v f).unslash = (g.unslash || decide (f = .unslash)) := by
  cases f <;> simp [put]

/-- Puts in all values of an option. -/
def putAll (g : Given) (vs : List Text) (f : Flag) : Given :=
  vs.foldl (fun g value => g.put value f) g

theorem unslash_putAll {f : Flag} (hf : f ≠ .unslash) (g : Given) (vs : List Text) :
    (g.putAll vs f).unslash = g.unslash := by
  induction vs generalizing g with
  | nil => rfl
  | cons v vs ih =>
    show ((g.put v f).putAll vs f).unslash = g.unslash
    rw [ih, unslash_put]
    simp [hf]

theorem texts_putAll_of_ne {f f' : Flag} (h : f ≠ f') (g : Given) (vs : List Text) :
    (g.putAll vs f).texts f' = g.texts f' := by
  induction vs generalizing g with
  | nil => rfl
  | cons v vs ih =>
    show ((g.put v f).putAll vs f).texts f' = g.texts f'
    rw [ih, texts_put_of_ne h]

theorem texts_putAll_pattern (g : Given) (vs : List Text) :
    (g.putAll vs .pattern).texts .pattern = g.texts .pattern ++ vs := by
  induction vs generalizing g with
  | nil => simp [putAll]
  | cons v vs ih =>
    show ((g.put v .pattern).putAll vs .pattern).texts .pattern = _
    rw [ih, texts_put_self (by decide) fun h => absurd rfl h, List.append_assoc,
      List.singleton_append]

/-- Values are put in if there are any, the option is not given yet and no path is empty. -/
theorem record_eq_ok {g : Given} {f : Flag} {vs : List Text} (hvs : vs ≠ [])
    (hfree : g.has f = false) (hpath : f.namesPath = true → [] ∉ vs) :
    g.record f vs = .ok (g.putAll vs f) := by
  have hempty : (f.namesPath && vs.contains []) = false := by
    cases hf : f.namesPath with
    | false => rfl
    | true => simpa using hpath hf
  rw [record, if_neg (by simpa using hvs), hfree, if_neg Bool.false_ne_true, hempty,
    if_neg Bool.false_ne_true]
  rfl

end Given

/-! ## What can be written -/

namespace Choice

/-- An option with values, as the reader needs them. -/
structure Filled (c : Choice) : Prop where
  takes : c.flag.takes ≠ .nothing
  nonempty : c.values ≠ []
  single : c.flag.takes = .values ∨ ∃ v, c.values = [v]
  plain : c.flag.takes = .anything ∨ ∀ v ∈ c.values, v.head? ≠ some '-'
  path : c.flag.namesPath = true → [] ∉ c.values

theorem filled_single {f : Flag} {long : Bool} {v : Text} (htakes : f.takes ≠ .nothing)
    (hplain : f.takes = .anything ∨ v.head? ≠ some '-') (hpath : f.namesPath = true → v ≠ []) :
    Filled ⟨f, long, [v]⟩ where
  takes := htakes
  nonempty := List.cons_ne_nil v []
  single := Or.inr ⟨v, rfl⟩
  plain := hplain.imp_right fun hv => by simpa using hv
  path := fun hf => by simpa using (hpath hf).symm

/-- What fits is the switch, or an option with values. -/
theorem Fits.cases {c : Choice} (h : c.Fits) :
    (c.flag = .unslash ∧ c.values = []) ∨ c.Filled := by
  cases h with
  | output hne hv => exact Or.inr (filled_single (by decide) (Or.inr hv) fun _ => hne)
  | settings hne hv => exact Or.inr (filled_single (by decide) (Or.inr hv) fun _ => hne)
  | pattern hne hv =>
    exact Or.inr ⟨by simp [Flag.takes], hne, Or.inl rfl, Or.inr hv, fun hf => by cases hf⟩
  | opening v | closing v | line v | strip v =>
    exact Or.inr (filled_single (by decide) (Or.inl rfl) fun hf => by cases hf)
  | extension hv => exact Or.inr (filled_single (by decide) (Or.inr hv) fun hf => by cases hf)
  | unslash => exact Or.inl ⟨rfl, rfl⟩

end Choice

theorem Given.Tells.has_eq_false {g : Given} {cs : List Choice} (h : g.Tells cs) {f : Flag}
    (hf : f ≠ .pattern → written cs f = false) : g.has f = false := by
  by_cases hp : f = .pattern
  · rw [hp]
    rfl
  · apply Given.has_eq_false
    · rw [h.texts, valuesOf_eq_nil (hf hp)]
    · rintro rfl
      rw [h.unslash, hf hp]

theorem Given.Tells.unslashed {g : Given} {cs : List Choice} (h : g.Tells cs) {c : Choice}
    (hc : c.flag = .unslash ∧ c.values = []) : (g.putAll [[]] .unslash).Tells (cs ++ [c]) := by
  refine ⟨fun f => ?_, ?_⟩
  · have hnone : valuesOf [c] f = [] := by
      rw [valuesOf_singleton, hc.2, ite_self]
    have hsame : (g.putAll [[]] .unslash).texts f = g.texts f := by
      cases f <;> rfl
    rw [hsame, valuesOf_append, hnone, List.append_nil, h.texts]
  · rw [written_append, written_singleton, decide_eq_true hc.1, Bool.or_true]
    rfl

theorem Given.Tells.filled {g : Given} {cs : List Choice} (h : g.Tells cs) {c : Choice}
    (hc : c.Filled) (hfree : c.flag ≠ .pattern → written cs c.flag = false) :
    (g.putAll c.values c.flag).Tells (cs ++ [c]) := by
  have hswitch : c.flag ≠ .unslash := fun hf => hc.takes (by rw [hf]; rfl)
  refine ⟨fun f => ?_, ?_⟩
  · rw [valuesOf_append, valuesOf_singleton, ← h.texts]
    by_cases hf : c.flag = f
    · subst hf
      rw [if_pos rfl]
      rcases hc.single with hvalues | ⟨v, hv⟩
      · have hpattern : c.flag = .pattern := by
          revert hvalues
          cases c.flag <;> decide
        rw [hpattern, Given.texts_putAll_pattern]
      · rw [hv]
        refine Given.texts_put_self hc.takes fun hp => ?_
        rw [h.texts, valuesOf_eq_nil (hfree hp)]
    · rw [if_neg hf, List.append_nil, Given.texts_putAll_of_ne hf]
  · rw [Given.unslash_putAll hswitch, written_append, written_singleton, decide_eq_false hswitch,
      Bool.or_false, h.unslash]

/-! ## Reading one choice -/

theorem Flag.ofLong?_long (f : Flag) : Flag.ofLong? f.long.toList = some f := by
  cases f <;> decide

theorem Flag.ofShort?_short (f : Flag) : Flag.ofShort? f.short = some f := by
  cases f <;> decide

namespace State

variable {st : State} {g : Given} {f : Flag}

theorem long_name (st : State) (f : Flag) :
    st.long f.long.toList = if f.takes = .nothing then st.act f else st.hold f := by
  have hname : ∀ c ∈ f.long.toList, (c != '=') = true := by
    apply List.all_eq_true.1
    cases f <;> decide
  rw [long, List.takeWhile_eq_self_iff.2 hname, List.dropWhile_eq_nil_iff.2 hname,
    Flag.ofLong?_long]
  cases hf : f.takes <;> simp [hf]

theorem short_name (st : State) (f : Flag) :
    st.short [f.short] = if f.takes = .nothing then st.act f else st.hold f := by
  simp only [short, Flag.ofShort?_short]
  cases hf : f.takes with
  | nothing =>
    show st.act f >>= pure = _
    rw [bind_pure, if_pos rfl]
  | value | anything | values => rfl

theorem step_long (hclosed : st.closed = false) (hfree : st.takesAnything = false) {s : Text}
    (hs : s ≠ []) : st.step ('-' :: '-' :: s) = st.long s := by
  obtain ⟨c, s, rfl⟩ := List.exists_cons_of_ne_nil hs
  simp [step, hclosed, hfree]

theorem step_short (hclosed : st.closed = false) (hfree : st.takesAnything = false) {c : Char}
    (hc : c ≠ '-') (s : Text) : st.step ('-' :: c :: s) = st.short (c :: s) := by
  unfold step
  rw [hclosed, hfree, if_neg Bool.false_ne_true, if_neg Bool.false_ne_true]
  simp [hc]

/-- Between two choices an argument that names an option is taken as such. -/
theorem step_name (hclosed : st.closed = false) (hfree : st.takesAnything = false) (c : Choice) :
    st.step c.name = if c.flag.takes = .nothing then st.act c.flag else st.hold c.flag := by
  cases hlong : c.long with
  | true =>
    have hne : c.flag.long.toList ≠ [] := by
      cases c.flag <;> decide
    rw [← long_name, ← step_long hclosed hfree hne, Choice.name, hlong]
    rfl
  | false =>
    have hne : c.flag.short ≠ '-' := by
      cases c.flag <;> decide
    rw [← short_name, ← step_short hclosed hfree hne, Choice.name, hlong]
    rfl

theorem word_held (htaking : st.taking = true) {vs : List Text} (hheld : st.held = some (f, vs))
    (v : Text) :
    st.word v = .ok { st with held := some (f, vs ++ [v]), taking := f.takes = .values } := by
  simp [word, htaking, hheld]

/-- An argument behind an option that takes it is one of its values. -/
theorem step_value (hclosed : st.closed = false) (htaking : st.taking = true) {vs : List Text}
    (hheld : st.held = some (f, vs)) {v : Text}
    (hv : f.takes = .anything ∨ v.head? ≠ some '-') :
    st.step v = .ok { st with held := some (f, vs ++ [v]), taking := f.takes = .values } := by
  rw [← word_held htaking hheld]
  unfold step
  rw [hclosed, if_neg Bool.false_ne_true]
  split
  · rfl
  · next hany =>
    have hplain : v.head? ≠ some '-' := by
      refine hv.resolve_left fun hf => hany ?_
      simp [takesAnything, htaking, hheld, hf]
    -- Every row of the match but the last is for an argument that starts with a hyphen.
    split <;> simp_all

/-- Between two choices: nothing is half read, and settling what is held back gives what the choices so
far say. -/
structure Ready (st : State) (cs : List Choice) : Prop where
  closed : st.closed = false
  free : st.takesAnything = false
  settled : ∃ g, st.settle = .ok g ∧ g.Tells cs

theorem ready_start : Ready {} [] :=
  ⟨rfl, rfl, {}, rfl, fun f => by cases f <;> rfl, rfl⟩

theorem hold_eq_ok (h : st.settle = .ok g) (f : Flag) :
    st.hold f = .ok { given := g, held := some (f, []), taking := true } := by
  rw [hold, h]
  rfl

theorem act_unslash_eq_ok (h : st.settle = .ok g) (hfree : g.has .unslash = false) :
    st.act .unslash = .ok { given := g.putAll [[]] .unslash } := by
  have hrecord : g.record .unslash [[]] = .ok (g.putAll [[]] .unslash) :=
    Given.record_eq_ok (by simp) hfree fun hf => by cases hf
  simp only [act, h, bind, Except.bind, hrecord]
  rfl

/-- An option that takes many values takes all words up to the next option. -/
theorem foldlM_words (hf : f.takes = .values) (us : List Text) {vs : List Text}
    (hvs : ∀ v ∈ vs, v.head? ≠ some '-') :
    vs.foldlM step { given := g, held := some (f, us), taking := true } =
      .ok { given := g, held := some (f, us ++ vs), taking := true } := by
  induction vs generalizing us with
  | nil =>
    rw [List.append_nil]
    rfl
  | cons v vs ih =>
    rw [List.foldlM_cons, step_value rfl rfl rfl (Or.inr (hvs v List.mem_cons_self)), hf]
    show vs.foldlM step { given := g, held := some (f, us ++ [v]), taking := true } = _
    rw [ih (us ++ [v]) fun w hw => hvs w (List.mem_cons_of_mem v hw), List.append_assoc,
      List.singleton_append]

theorem foldlM_values {c : Choice} (hc : c.Filled) :
    c.values.foldlM step { given := g, held := some (c.flag, []), taking := true } =
      .ok { given := g, held := some (c.flag, c.values), taking := c.flag.takes = .values } := by
  rcases hc.single with hmany | ⟨v, hv⟩
  · have hplain : ∀ v ∈ c.values, v.head? ≠ some '-' :=
      hc.plain.resolve_left fun h => by rw [hmany] at h; cases h
    rw [foldlM_words hmany [] hplain, List.nil_append, decide_eq_true hmany]
  · have hplain : c.flag.takes = .anything ∨ v.head? ≠ some '-' :=
      hc.plain.imp_right fun h => h v (by rw [hv]; exact List.mem_cons_self)
    rw [hv, List.foldlM_cons, step_value rfl rfl rfl hplain]
    rfl

/-- **One choice.** From between two choices the reader comes to between two choices. -/
theorem Ready.step {cs : List Choice} (h : Ready st cs) {c : Choice} (hfits : c.Fits)
    (hfree : c.flag ≠ .pattern → written cs c.flag = false) :
    ∃ st', c.arguments.foldlM State.step st = .ok st' ∧ Ready st' (cs ++ [c]) := by
  obtain ⟨g, hsettle, htells⟩ := h.settled
  have hhas : g.has c.flag = false := htells.has_eq_false hfree
  rcases hfits.cases with hswitch | hfilled
  · refine ⟨{ given := g.putAll [[]] .unslash }, ?_, rfl, rfl, _, rfl, htells.unslashed hswitch⟩
    rw [hswitch.1] at hhas
    rw [Choice.arguments, hswitch.2, List.foldlM_cons, step_name h.closed h.free, hswitch.1,
      if_pos (show Flag.unslash.takes = .nothing from rfl), act_unslash_eq_ok hsettle hhas]
    rfl
  · refine ⟨{ given := g, held := some (c.flag, c.values), taking := c.flag.takes = .values }, ?_,
      rfl, ?_, _, ?_, htells.filled hfilled hfree⟩
    · rw [Choice.arguments, List.foldlM_cons, step_name h.closed h.free, if_neg hfilled.takes,
        hold_eq_ok hsettle]
      exact foldlM_values hfilled
    · cases hf : c.flag.takes <;> simp [takesAnything, hf]
    · simp only [settle, Given.record_eq_ok hfilled.nonempty hhas hfilled.path]

/-- **All choices.** -/
theorem Ready.run {cs ds : List Choice} (h : Ready st cs) (hfits : ∀ d ∈ ds, d.Fits)
    (honce : Once (cs ++ ds)) :
    ∃ st', (ds.flatMap Choice.arguments).foldlM State.step st = .ok st' ∧
      Ready st' (cs ++ ds) := by
  induction ds generalizing cs st with
  | nil => exact ⟨st, rfl, by rw [List.append_nil]; exact h⟩
  | cons d ds ih =>
    have hfree : d.flag ≠ .pattern → written cs d.flag = false := by
      intro hd
      refine List.any_eq_false.2 fun c hc hflag => hd ?_
      have hflag : c.flag = d.flag := by simpa using hflag
      rw [← hflag]
      exact (List.pairwise_append.1 honce).2.2 c hc d List.mem_cons_self hflag
    obtain ⟨st', hread, hready⟩ := h.step (hfits d List.mem_cons_self) hfree
    have hcons : cs ++ d :: ds = (cs ++ [d]) ++ ds := by simp
    obtain ⟨st'', hrest, hready'⟩ := ih hready (fun e he => hfits e (List.mem_cons_of_mem d he))
      (hcons ▸ honce)
    refine ⟨st'', ?_, hcons ▸ hready'⟩
    rw [List.flatMap_cons, List.foldlM_append, hread]
    exact hrest

end State

/-! ## Laying choices over settings -/

/-- An option with values is written exactly when there are values for it. -/
theorem valuesOf_eq_nil_iff {cs : List Choice} (hfits : ∀ c ∈ cs, c.Fits) {f : Flag}
    (hf : f ≠ .unslash) : valuesOf cs f = [] ↔ written cs f = false := by
  refine ⟨fun hnil => List.any_eq_false.2 fun c hc hflag => ?_, valuesOf_eq_nil⟩
  have hflag : c.flag = f := by simpa using hflag
  have hvalues : c.values = [] := by
    rw [valuesOf, List.flatMap_eq_nil_iff] at hnil
    exact hnil c (List.mem_filter.2 ⟨hc, by simpa using hflag⟩)
  rcases (hfits c hc).cases with hswitch | hfilled
  · exact hf (hflag ▸ hswitch.1)
  · exact hfilled.nonempty hvalues

/-- What is given for an option replaces its setting, and nothing else does. -/
theorem textsOf?_overlay (g : Given) (b : Settings) (f : Flag) :
    textsOf? (g.overlay b) f =
      (textsOf? b f).map fun old => if g.texts f = [] then old else g.texts f := by
  have hsingle : ∀ (new : Option Text) (old : Text),
      [new.getD old] = if new.toList = [] then [old] else new.toList := by
    intro new old
    cases new <;> rfl
  cases f with
  | output | opening | closing | line | strip | extension => exact congrArg some (hsingle _ _)
  | pattern =>
    show some (if g.patterns.isEmpty then b.patterns else g.patterns) =
      some (if g.patterns = [] then b.patterns else g.patterns)
    cases g.patterns <;> rfl
  | unslash | settings | help | version => rfl

theorem Given.Tells.overlaid {g : Given} {cs : List Choice} (h : g.Tells cs)
    (hfits : ∀ c ∈ cs, c.Fits) (b : Settings) : Overlaid cs b (g.overlay b) := by
  refine ⟨fun f => ?_, ?_⟩
  · rw [textsOf?_overlay, h.texts]
    by_cases hf : f = .unslash
    · rw [hf]
      rfl
    · simp only [valuesOf_eq_nil_iff hfits hf]
      cases written cs f <;> rfl
  · show (b.markers.unslash || g.unslash) = _
    rw [h.unslash]

theorem Given.Tells.settingsOf_eq {g : Given} {cs : List Choice} (h : g.Tells cs) (t : Tree) :
    settingsOf t g = (base t cs).map g.overlay := by
  have hfile : g.settings?.toList = valuesOf cs .settings := h.texts .settings
  rw [settingsOf, base, ← hfile]
  cases g.settings? with
  | none => rfl
  | some file =>
    show _ = (Settings.load t file).map g.overlay
    cases hload : Settings.load t file <;> simp [hload, Except.map]

theorem Given.Tells.lacking_eq_nil {g : Given} {cs : List Choice} (h : g.Tells cs)
    (hfits : ∀ c ∈ cs, c.Fits)
    (hneeded : written cs .settings = true ∨
      written cs .output = true ∧ written cs .pattern = true) : g.lacking = [] := by
  have hgiven : ∀ f, f ≠ .unslash → written cs f = true → g.texts f ≠ [] := by
    intro f hf hw hnil
    rw [h.texts, valuesOf_eq_nil_iff hfits hf, hw] at hnil
    cases hnil
  unfold lacking
  rcases hneeded with hsettings | ⟨houtput, hpattern⟩
  · have hfile : g.settings?.toList ≠ [] := hgiven .settings (by decide) hsettings
    cases hs : g.settings? with
    | none => simp [hs] at hfile
    | some file => rfl
  · have hout : g.output?.toList ≠ [] := hgiven .output (by decide) houtput
    have hpat : g.patterns ≠ [] := hgiven .pattern (by decide) hpattern
    cases ho : g.output? with
    | none => simp [ho] at hout
    | some v => simp [hpat]

/-- Choices are read, in whatever order they are written. -/
theorem read_choices {cs : List Choice} (hfits : ∀ c ∈ cs, c.Fits) (honce : Once cs)
    (hneeded : written cs .settings = true ∨
      written cs .output = true ∧ written cs .pattern = true) :
    ∃ g : Given, g.Tells cs ∧
      Request.read (cs.flatMap Choice.arguments) = .ok (.extract g) := by
  obtain ⟨st, hread, hready⟩ := State.ready_start.run hfits honce
  obtain ⟨g, hsettle, htells⟩ : ∃ g, st.settle = .ok g ∧ g.Tells cs := hready.settled
  have hfinish : (cs.flatMap Choice.arguments).foldlM State.step {} >>= State.settle = .ok g := by
    rw [hread]
    exact hsettle
  refine ⟨g, htells, ?_⟩
  simp only [Request.read, hfinish, htells.lacking_eq_nil hfits hneeded]

theorem snd_extract {t : Tree} {g : Given} {s : Settings} (h : settingsOf t g = .ok s)
    (colours : Bool) : (extract colours g t).2 = (Extraction.runChecked s t).2 := by
  simp only [extract, h]
  rcases Extraction.runChecked s t with ⟨_ | _, _⟩ <;> rfl

/-- **The command line over the settings file.** Options that fit, each but the pattern at most once and
with an output and a pattern unless there is a settings file, are read in every order.  The settings of
the run are those of the file, or else the defaults, with every written option in the place of its
setting and the rest as it was; a file that cannot be read is the error of the run, which then leaves the
tree alone.  The tree that the program leaves is that of an extraction with these settings. -/
theorem run_overlays {cs : List Choice} (hfits : ∀ c ∈ cs, c.Fits) (honce : Once cs)
    (hneeded : written cs .settings = true ∨
      written cs .output = true ∧ written cs .pattern = true) (t : Tree) :
    ∃ g, Request.read (cs.flatMap Choice.arguments) = .ok (.extract g) ∧
      (∀ e, base t cs = .error e → settingsOf t g = .error e ∧
        ∀ colours, run colours (cs.flatMap Choice.arguments) t = (.ofError colours e, t)) ∧
      ∀ b, base t cs = .ok b → ∃ s, settingsOf t g = .ok s ∧ Overlaid cs b s ∧
        ∀ colours, (run colours (cs.flatMap Choice.arguments) t).2 =
          (Extraction.runChecked s t).2 := by
  obtain ⟨g, htells, hread⟩ := read_choices hfits honce hneeded
  refine ⟨g, hread, fun e hbase => ?_, fun b hbase => ?_⟩
  · have hsettings : settingsOf t g = .error e := by
      rw [htells.settingsOf_eq, hbase]
      rfl
    refine ⟨hsettings, fun colours => ?_⟩
    simp only [run, hread, extract, hsettings]
  · have hsettings : settingsOf t g = .ok (g.overlay b) := by
      rw [htells.settingsOf_eq, hbase]
      rfl
    refine ⟨g.overlay b, hsettings, htells.overlaid hfits b, fun colours => ?_⟩
    simp only [run, hread]
    exact snd_extract hsettings colours

/-- A tree with a settings file. -/
def layeredTree : Tree :=
  Tree.root.insert [] "c".toList
    (.file (Text.Utf8.encode "\x7b\"output\": \"d\", \"line\": \"-\", \"pattern\": \"x\"\x7d".toList))

/-- A mark that looks like an option stands before a group of patterns, which the settings file ends and
which another pattern follows later. -/
theorem run_overlays_layeredTree :
    let cs : List Choice :=
      [⟨.opening, false, ["-e".toList]⟩, ⟨.pattern, true, ["a".toList, []]⟩,
        ⟨.settings, false, ["c".toList]⟩, ⟨.unslash, false, []⟩, ⟨.strip, true, ["--".toList]⟩,
        ⟨.pattern, false, ["b".toList]⟩]
    let b : Settings :=
      { patterns := ["x".toList], output := "d".toList, markers := { line := "-".toList } }
    base layeredTree cs = .ok b ∧
      ∃ g s, Request.read (cs.flatMap Choice.arguments) = .ok (.extract g) ∧
        settingsOf layeredTree g = .ok s ∧ Overlaid cs b s := by
  intro cs b
  have hfits : ∀ c ∈ cs, c.Fits := by
    intro c hc
    simp only [cs, List.mem_cons, List.not_mem_nil, or_false] at hc
    rcases hc with rfl | rfl | rfl | rfl | rfl | rfl
    · exact .opening _
    · exact .pattern (by decide) (by decide)
    · exact .settings (by decide) (by decide)
    · exact .unslash
    · exact .strip _
    · exact .pattern (by decide) (by decide)
  have hbase : base layeredTree cs = .ok b := by
    have hsome : (base layeredTree cs).toOption = some b := by
      decide +kernel
    cases hload : base layeredTree cs with
    | error e =>
      rw [hload] at hsome
      contradiction
    | ok s =>
      rw [hload] at hsome
      rw [Option.some.inj hsome]
  obtain ⟨g, hread, -, hok⟩ := run_overlays hfits (by decide) (Or.inl (by decide)) layeredTree
  obtain ⟨s, hsettings, hover, -⟩ := hok b hbase
  exact ⟨hbase, g, s, hread, hsettings, hover⟩

end Docblocks.CommandLine
