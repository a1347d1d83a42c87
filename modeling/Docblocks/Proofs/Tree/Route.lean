/-
# Docblocks.Proofs.Tree.Route — a walk along a path as a relation.

`Tree.resolve` computes where the steps of a path end, with a nested recursion: over the steps, and over
links, whose targets put new steps in front.  `Route` is the same walk as an inductive relation with one
rule for each thing that a step can do, so that a fact about all walks is one induction over the rules.
`resolve_eq_ok_iff` makes the two equal.

The facts here are about a walk in one tree (where it can end, what changes when it is for another aim,
how it goes on behind a directory) and about the same walk in a larger tree.
-/
import Docblocks.Proofs.Tree.Growth

namespace Docblocks.Tree

/-! ## The relation -/

/-- Whether a name can be a step at all: it is short enough, and no slash at the end of a path for a
file follows it. -/
def Passable (aim : Aim) (n : Text) (rest : List Path.Step) : Prop :=
  ¬ (aim = .file ∧ rest = [.slash]) ∧ Text.Utf8.byteLength n ≤ nameLimit

/-- Whether a walk can end at an entry that is no directory: at a link only for some aims. -/
def Stops (aim : Aim) : Entry → Prop
  | .dir => False
  | .link _ => aim = .entry ∨ aim = .directory
  | .file _ => True
  | .device => True

/-- Walks in `t`: over at most so many links, the steps lead from a location to a place. -/
inductive Route (t : Tree) (aim : Aim) : Nat → Location → List Path.Step → Place → Prop
  | done (links : Nat) (l : Location) : Route t aim links l [] (.found l)
  | here {links : Nat} {l : Location} {rest : List Path.Step} {p : Place} :
      Route t aim links l rest p → Route t aim links l (.here :: rest) p
  | slash {links : Nat} {l : Location} {rest : List Path.Step} {p : Place} :
      Route t aim links l rest p → Route t aim links l (.slash :: rest) p
  | up {links : Nat} {l : Location} {rest : List Path.Step} {p : Place} :
      Route t aim links l.tail rest p → Route t aim links l (.up :: rest) p
  | vacant {links : Nat} {l : Location} {n : Text} {rest : List Path.Step} :
      Passable aim n rest → t.get? (n :: l) = none → isLast aim rest = true →
      Route t aim links l (.name n :: rest) (.vacant l n)
  | stop {links : Nat} {l : Location} {n : Text} {rest : List Path.Step} {e : Entry} :
      Passable aim n rest → t.get? (n :: l) = some e → Stops aim e → isLast aim rest = true →
      Route t aim links l (.name n :: rest) (.found (n :: l))
  | enter {links : Nat} {l : Location} {n : Text} {rest : List Path.Step} {p : Place} :
      Passable aim n rest → t.get? (n :: l) = some .dir → Route t aim links (n :: l) rest p →
      Route t aim links l (.name n :: rest) p
  | follow {links : Nat} {l : Location} {n text : Text} {rest : List Path.Step} {p : Place} :
      Passable aim n rest → t.get? (n :: l) = some (.link text) →
      ¬ (isLast aim rest = true ∧ (aim = .entry ∨ aim = .directory)) →
      Route t aim links (base l text) (Path.steps text ++ rest) p →
      Route t aim (links + 1) l (.name n :: rest) p

variable {t : Tree} {aim : Aim}

/-! ## The function and the relation -/

/-- How a walk goes on from a link, by the number of links that are left. -/
def onward (t : Tree) (aim : Aim) : Nat → Location → List Path.Step → Except Cause Place
  | 0 => fun _ _ => .error .tooManyLinks
  | links + 1 => t.resolve aim links

theorem resolve_nil (links : Nat) (l : Location) : t.resolve aim links l [] = .ok (.found l) := by
  cases links <;> rfl

theorem resolve_here (links : Nat) (l : Location) (rest : List Path.Step) :
    t.resolve aim links l (.here :: rest) = t.resolve aim links l rest := by
  cases links <;> rfl

theorem resolve_slash (links : Nat) (l : Location) (rest : List Path.Step) :
    t.resolve aim links l (.slash :: rest) = t.resolve aim links l rest := by
  cases links <;> rfl

theorem resolve_up (links : Nat) (l : Location) (rest : List Path.Step) :
    t.resolve aim links l (.up :: rest) = t.resolve aim links l.tail rest := by
  cases links <;> rfl

theorem resolve_name {n : Text} {rest : List Path.Step} (hpass : Passable aim n rest) (links : Nat)
    (l : Location) :
    t.resolve aim links l (.name n :: rest) =
      match t.get? (n :: l) with
      | none => if isLast aim rest then .ok (.vacant l n) else .error .noEntry
      | some .dir => t.resolve aim links (n :: l) rest
      | some (.link text) =>
        if isLast aim rest ∧ (aim = .entry ∨ aim = .directory) then .ok (.found (n :: l))
        else t.onward aim links (base l text) (Path.steps text ++ rest)
      | some (.file _) => if isLast aim rest then .ok (.found (n :: l)) else .error .notDirectory
      | some .device => if isLast aim rest then .ok (.found (n :: l)) else .error .notDirectory := by
  cases links <;>
    (rw [resolve, resolveWith, if_neg hpass.1, if_neg (Nat.not_lt.2 hpass.2)]; rfl)

theorem passable_of_resolve {links : Nat} {l : Location} {n : Text} {rest : List Path.Step}
    {p : Place} (h : t.resolve aim links l (.name n :: rest) = .ok p) : Passable aim n rest := by
  by_cases hslash : aim = .file ∧ rest = [.slash]
  · cases links <;> (rw [resolve, resolveWith, if_pos hslash] at h; cases h)
  · by_cases hlong : nameLimit < Text.Utf8.byteLength n
    · cases links <;> (rw [resolve, resolveWith, if_neg hslash, if_pos hlong] at h; cases h)
    · exact ⟨hslash, Nat.not_lt.1 hlong⟩

theorem Route.resolve_eq {links : Nat} {l : Location} {steps : List Path.Step} {p : Place}
    (h : Route t aim links l steps p) : t.resolve aim links l steps = .ok p := by
  induction h with
  | done links l => exact resolve_nil links l
  | here _ ih => rw [resolve_here, ih]
  | slash _ ih => rw [resolve_slash, ih]
  | up _ ih => rw [resolve_up, ih]
  | vacant hpass hget hlast => simp only [resolve_name hpass, hget, if_pos hlast]
  | @stop links l n rest e hpass hget hstop hlast =>
    cases e with
    | dir => cases hstop
    | link text =>
      have hends : isLast aim rest = true ∧ (aim = .entry ∨ aim = .directory) := ⟨hlast, hstop⟩
      simp only [resolve_name hpass, hget, if_pos hends]
    | file content => simp only [resolve_name hpass, hget, if_pos hlast]
    | device => simp only [resolve_name hpass, hget, if_pos hlast]
  | enter hpass hget _ ih => simp only [resolve_name hpass, hget, ih]
  | follow hpass hget hgo _ ih => simp only [resolve_name hpass, hget, if_neg hgo, onward, ih]

theorem of_ite_eq_ok {ε α : Type} {c : Prop} [Decidable c] {a b : α} {e : ε}
    (h : (if c then Except.ok a else Except.error e) = Except.ok b) : c ∧ a = b := by
  by_cases hc : c
  · rw [if_pos hc] at h
    exact ⟨hc, Except.ok.inj h⟩
  · rw [if_neg hc] at h
    cases h

/-- The recursion over the steps, given the walks that follow a link. -/
theorem route_of_onward {links : Nat}
    (honward : ∀ l steps p, t.onward aim links l steps = .ok p →
      ∃ links', links = links' + 1 ∧ Route t aim links' l steps p)
    (l : Location) (steps : List Path.Step) (p : Place)
    (h : t.resolve aim links l steps = .ok p) : Route t aim links l steps p := by
  -- Every step but a link leaves a shorter list; what follows a link is given.
  induction steps generalizing l with
  | nil =>
    rw [resolve_nil] at h
    cases h
    exact .done links l
  | cons step rest ih =>
    cases step with
    | here =>
      rw [resolve_here] at h
      exact .here (ih l h)
    | slash =>
      rw [resolve_slash] at h
      exact .slash (ih l h)
    | up =>
      rw [resolve_up] at h
      exact .up (ih l.tail h)
    | name n =>
      have hpass := passable_of_resolve h
      rw [resolve_name hpass] at h
      cases hget : t.get? (n :: l) with
      | none =>
        simp only [hget] at h
        obtain ⟨hlast, rfl⟩ := of_ite_eq_ok h
        exact .vacant hpass hget hlast
      | some e =>
        cases e with
        | dir =>
          simp only [hget] at h
          exact .enter hpass hget (ih (n :: l) h)
        | link text =>
          simp only [hget] at h
          by_cases hends : isLast aim rest = true ∧ (aim = .entry ∨ aim = .directory)
          · rw [if_pos hends] at h
            cases h
            exact .stop hpass hget hends.2 hends.1
          · rw [if_neg hends] at h
            obtain ⟨links', rfl, hroute⟩ := honward _ _ _ h
            exact .follow hpass hget hends hroute
        | file content =>
          simp only [hget] at h
          obtain ⟨hlast, rfl⟩ := of_ite_eq_ok h
          exact .stop hpass hget trivial hlast
        | device =>
          simp only [hget] at h
          obtain ⟨hlast, rfl⟩ := of_ite_eq_ok h
          exact .stop hpass hget trivial hlast

theorem route_of_resolve (links : Nat) (l : Location) (steps : List Path.Step) (p : Place)
    (h : t.resolve aim links l steps = .ok p) : Route t aim links l steps p := by
  induction links generalizing l steps p with
  | zero => exact route_of_onward (fun _ _ _ h => by cases h) l steps p h
  | succ links ih =>
    exact route_of_onward (fun l steps p h => ⟨links, rfl, ih l steps p h⟩) l steps p h

/-- The function and the relation agree. -/
theorem resolve_eq_ok_iff {links : Nat} {l : Location} {steps : List Path.Step} {p : Place} :
    t.resolve aim links l steps = .ok p ↔ Route t aim links l steps p :=
  ⟨route_of_resolve links l steps p, Route.resolve_eq⟩

/-- What a path text has to be for the tree to walk it at all. -/
def Walkable (path : Text) : Prop :=
  '\x00' ∉ path ∧ path ≠ [] ∧ Text.Utf8.byteLength path < pathLimit

theorem locate_of_walkable {path : Text} (h : Walkable path) :
    t.locate aim path = t.resolve aim linkLimit (base t.cwd path) (Path.steps path) := by
  rw [locate, if_neg h.1, if_neg h.2.1, if_neg (Nat.not_le.2 h.2.2)]

theorem locate_eq_ok_iff {path : Text} {p : Place} :
    t.locate aim path = .ok p ↔
      Walkable path ∧ Route t aim linkLimit (base t.cwd path) (Path.steps path) p := by
  constructor
  · intro h
    by_cases hnul : '\x00' ∈ path
    · rw [locate, if_pos hnul] at h
      cases h
    by_cases hempty : path = []
    · rw [locate, if_neg hnul, if_pos hempty] at h
      cases h
    by_cases hlong : pathLimit ≤ Text.Utf8.byteLength path
    · rw [locate, if_neg hnul, if_neg hempty, if_pos hlong] at h
      cases h
    have hwalk : Walkable path := ⟨hnul, hempty, Nat.not_le.1 hlong⟩
    rw [locate_of_walkable hwalk, resolve_eq_ok_iff] at h
    exact ⟨hwalk, h⟩
  · rintro ⟨hwalk, hroute⟩
    rw [locate_of_walkable hwalk]
    exact hroute.resolve_eq

/-! ## Where a walk can end -/

variable {links : Nat} {l : Location} {steps : List Path.Step} {p : Place}

theorem get?_tail (hl : t.get? l = some .dir) : t.get? l.tail = some .dir := by
  cases l with
  | nil => rfl
  | cons n l => exact get?_parent hl

theorem get?_base (hl : t.get? l = some .dir) (path : Text) : t.get? (base l path) = some .dir := by
  unfold base
  split
  · rfl
  · exact hl

/-- A place that a walk can end at: an entry that is there, or a free name in a directory. -/
def Place.Sound (t : Tree) : Place → Prop
  | .found l => ∃ e, t.get? l = some e
  | .vacant dir n => t.get? dir = some .dir ∧ t.get? (n :: dir) = none

theorem Route.sound (h : Route t aim links l steps p) (hl : t.get? l = some .dir) : p.Sound t := by
  induction h with
  | done _ l => exact ⟨.dir, hl⟩
  | here _ ih => exact ih hl
  | slash _ ih => exact ih hl
  | up _ ih => exact ih (get?_tail hl)
  | vacant _ hget _ => exact ⟨hl, hget⟩
  | stop _ hget _ _ => exact ⟨_, hget⟩
  | enter _ hget _ ih => exact ih hget
  | follow _ _ _ _ ih => exact ih (get?_base hl _)

theorem sound_of_locate {path : Text} (h : t.locate aim path = .ok p) : p.Sound t :=
  (locate_eq_ok_iff.1 h).2.sound (get?_base (get?_cwd t) path)

theorem isLast_of_ne_directory (haim : aim ≠ .directory) {rest : List Path.Step} :
    isLast aim rest = true ↔ rest = [] := by
  simp [isLast, haim]

/-- A walk for a file or for an entry itself is also one for what is there, unless it ends at a
link. -/
theorem Route.to_target (h : Route t aim links l steps p) (haim : aim ≠ .directory)
    (hp : ∀ k text, p = .found k → t.get? k ≠ some (.link text)) :
    Route t .target links l steps p := by
  have hpassable : ∀ {n rest}, Passable aim n rest → Passable .target n rest :=
    fun hpass => ⟨by simp, hpass.2⟩
  induction h with
  | done links l => exact .done links l
  | here _ ih => exact .here (ih hp)
  | slash _ ih => exact .slash (ih hp)
  | up _ ih => exact .up (ih hp)
  | vacant hpass hget hlast =>
    rw [isLast_of_ne_directory haim] at hlast
    exact .vacant (hpassable hpass) hget (by rw [hlast]; rfl)
  | @stop links l n rest e hpass hget hstop hlast =>
    rw [isLast_of_ne_directory haim] at hlast
    refine .stop (hpassable hpass) hget ?_ (by rw [hlast]; rfl)
    cases e with
    | dir => exact hstop
    | link text => exact absurd hget (hp _ text rfl)
    | file content => trivial
    | device => trivial
  | enter hpass hget _ ih => exact .enter (hpassable hpass) hget (ih hp)
  | follow hpass hget _ _ ih => exact .follow (hpassable hpass) hget (by simp) (ih hp)

/-- A directory that a walk ends at is in the way of one to be made. -/
theorem Route.to_directory (h : Route t .target links l steps p) {d : Location} (hp : p = .found d)
    (hd : t.get? d = some .dir) : ∃ k, Route t .directory links l steps (.found k) := by
  induction h with
  | done links l => exact ⟨l, .done links l⟩
  | here _ ih => exact (ih hp).imp fun _ h => .here h
  | slash _ ih => exact (ih hp).imp fun _ h => .slash h
  | up _ ih => exact (ih hp).imp fun _ h => .up h
  | vacant => cases hp
  | stop _ hget hstop _ =>
    cases hp
    rw [hget] at hd
    cases hd
    exact hstop.elim
  | enter hpass hget _ ih => exact (ih hp).imp fun _ h => .enter ⟨by simp, hpass.2⟩ hget h
  | @follow links l n text rest p hpass hget _ _ ih =>
    -- A link at the end is in the way itself; any other is followed as before.
    by_cases hlast : isLast .directory rest = true
    · exact ⟨n :: l, .stop ⟨by simp, hpass.2⟩ hget (Or.inr rfl) hlast⟩
    · exact (ih hp).imp fun _ h => .follow ⟨by simp, hpass.2⟩ hget (fun hend => hlast hend.1) h

/-- What a path for a file is opened at, it leads to. -/
theorem locate_target_of_file {path : Text} {k : Location} {e : Entry}
    (h : t.locate .file path = .ok (.found k)) (hk : t.get? k = some e)
    (he : ∀ text, e ≠ .link text) : t.locate .target path = .ok (.found k) := by
  obtain ⟨hwalk, hroute⟩ := locate_eq_ok_iff.1 h
  refine locate_eq_ok_iff.2 ⟨hwalk, hroute.to_target (by simp) ?_⟩
  intro k' text hk' hlink
  cases hk'
  rw [hk] at hlink
  exact he text (Option.some.inj hlink)

/-! ## Questions about a path -/

theorem entry?_eq_some_iff {path : Text} {e : Entry} :
    t.entry? path = some e ↔ ∃ k, t.locate .target path = .ok (.found k) ∧ t.get? k = some e := by
  unfold entry? look
  cases t.locate .target path with
  | error cause => simp [Except.toOption]
  | ok p =>
    cases p with
    | vacant d n => simp [Except.toOption]
    | found k => cases hk : t.get? k <;> simp [Except.toOption, hk]

theorem isDir_iff {path : Text} :
    t.isDir path = true ↔ ∃ d, t.locate .target path = .ok (.found d) ∧ t.get? d = some .dir := by
  rw [isDir, decide_eq_true_eq, entry?_eq_some_iff]

theorem isFile_iff {path : Text} :
    t.isFile path = true ↔
      ∃ k content, t.locate .target path = .ok (.found k) ∧ t.get? k = some (.file content) := by
  have hfile : t.isFile path = true ↔ ∃ content, t.entry? path = some (.file content) := by
    unfold isFile
    cases t.entry? path with
    | none => simp
    | some e => cases e <;> simp
  rw [hfile]
  constructor
  · rintro ⟨content, h⟩
    obtain ⟨k, hk, hget⟩ := entry?_eq_some_iff.1 h
    exact ⟨k, content, hk, hget⟩
  · rintro ⟨k, content, hk, hget⟩
    exact ⟨content, entry?_eq_some_iff.2 ⟨k, hk, hget⟩⟩

theorem leads_of_isDir {path : Text} (h : t.isDir path = true) : t.leads path = true := by
  rw [isDir, decide_eq_true_eq] at h
  rw [leads, h]
  rfl

/-! ## Going on behind a directory -/

theorem isLast_append {before rest : List Path.Step} (hnil : rest ≠ []) (hslash : rest ≠ [.slash]) :
    isLast aim (before ++ rest) = false := by
  cases before with
  | nil => simp [isLast, hnil, hslash]
  | cons step before => simp [isLast, hnil]

theorem Passable.append {n : Text} {before rest : List Path.Step} (h : Passable .target n before)
    (hnil : rest ≠ []) (hslash : rest ≠ [.slash]) : Passable aim n (before ++ rest) := by
  refine ⟨?_, h.2⟩
  rintro ⟨_, heq⟩
  rcases List.append_eq_singleton_iff.1 heq with ⟨_, h⟩ | ⟨_, h⟩
  · exact hslash h
  · exact hnil h

/-- Behind a directory that a walk ends at, a longer walk goes on from there with the links that are
left. -/
theorem Route.resolve_append (h : Route t .target links l steps p) {d : Location}
    (hp : p = .found d) (hd : t.get? d = some .dir) :
    ∃ links', ∀ aim rest, rest ≠ [] → rest ≠ [.slash] →
      t.resolve aim links l (steps ++ rest) = t.resolve aim links' d rest := by
  -- With more behind it no step of the walk is the last one, so what it does hangs on no aim.
  induction h with
  | done links l =>
    cases hp
    exact ⟨links, fun _ _ _ _ => rfl⟩
  | here _ ih =>
    obtain ⟨links', hrest⟩ := ih hp
    exact ⟨links', fun aim rest hnil hslash => by
      rw [List.cons_append, resolve_here, hrest aim rest hnil hslash]⟩
  | slash _ ih =>
    obtain ⟨links', hrest⟩ := ih hp
    exact ⟨links', fun aim rest hnil hslash => by
      rw [List.cons_append, resolve_slash, hrest aim rest hnil hslash]⟩
  | up _ ih =>
    obtain ⟨links', hrest⟩ := ih hp
    exact ⟨links', fun aim rest hnil hslash => by
      rw [List.cons_append, resolve_up, hrest aim rest hnil hslash]⟩
  | vacant => cases hp
  | stop _ hget hstop _ =>
    cases hp
    rw [hget] at hd
    cases hd
    exact hstop.elim
  | enter hpass hget _ ih =>
    obtain ⟨links', hrest⟩ := ih hp
    exact ⟨links', fun aim rest hnil hslash => by
      rw [List.cons_append, resolve_name (hpass.append hnil hslash)]
      simp only [hget, hrest aim rest hnil hslash]⟩
  | follow hpass hget _ _ ih =>
    obtain ⟨links', hrest⟩ := ih hp
    refine ⟨links', fun aim rest hnil hslash => ?_⟩
    rw [List.cons_append, resolve_name (hpass.append hnil hslash)]
    simp only [hget, isLast_append hnil hslash, Bool.false_eq_true, false_and, if_false, onward]
    rw [← List.append_assoc, hrest aim rest hnil hslash]

/-- A walk that goes on has come to a directory. -/
theorem Route.of_append {before rest : List Path.Step} (h : Route t .target links l (before ++ rest) p)
    (hl : t.get? l = some .dir) (hrest : rest ≠ []) :
    ∃ d, Route t .target links l before (.found d) ∧ t.get? d = some .dir := by
  have hnot : ∀ before, ¬ isLast .target (before ++ rest) = true := by
    intro before hlast
    rw [isLast_of_ne_directory (by simp), List.append_eq_nil_iff] at hlast
    exact hrest hlast.2
  generalize hsteps : before ++ rest = steps at h
  induction h generalizing before with
  | done links l =>
    rw [List.append_eq_nil_iff] at hsteps
    exact absurd hsteps.2 hrest
  | @here links l _ _ _ ih =>
    cases before with
    | nil => exact ⟨l, .done links l, hl⟩
    | cons step before =>
      obtain ⟨rfl, htail⟩ := List.cons.inj hsteps
      obtain ⟨d, hroute, hd⟩ := ih hl htail
      exact ⟨d, .here hroute, hd⟩
  | @slash links l _ _ _ ih =>
    cases before with
    | nil => exact ⟨l, .done links l, hl⟩
    | cons step before =>
      obtain ⟨rfl, htail⟩ := List.cons.inj hsteps
      obtain ⟨d, hroute, hd⟩ := ih hl htail
      exact ⟨d, .slash hroute, hd⟩
  | @up links l _ _ _ ih =>
    cases before with
    | nil => exact ⟨l, .done links l, hl⟩
    | cons step before =>
      obtain ⟨rfl, htail⟩ := List.cons.inj hsteps
      obtain ⟨d, hroute, hd⟩ := ih (get?_tail hl) htail
      exact ⟨d, .up hroute, hd⟩
  | @vacant links l _ _ _ _ hlast =>
    cases before with
    | nil => exact ⟨l, .done links l, hl⟩
    | cons step before =>
      obtain ⟨_, rfl⟩ := List.cons.inj hsteps
      exact absurd hlast (hnot before)
  | @stop links l _ _ _ _ _ _ hlast =>
    cases before with
    | nil => exact ⟨l, .done links l, hl⟩
    | cons step before =>
      obtain ⟨_, rfl⟩ := List.cons.inj hsteps
      exact absurd hlast (hnot before)
  | @enter links l _ _ _ hpass hget _ ih =>
    cases before with
    | nil => exact ⟨l, .done links l, hl⟩
    | cons step before =>
      obtain ⟨rfl, htail⟩ := List.cons.inj hsteps
      obtain ⟨d, hroute, hd⟩ := ih hget htail
      exact ⟨d, .enter ⟨by simp, hpass.2⟩ hget hroute, hd⟩
  | @follow links l n text rest' _ hpass hget _ _ ih =>
    cases before with
    | nil => exact ⟨l, .done _ l, hl⟩
    | cons step before =>
      obtain ⟨rfl, htail⟩ := List.cons.inj hsteps
      have hmore : (Path.steps text ++ before) ++ rest = Path.steps text ++ rest' := by
        rw [List.append_assoc]
        exact congrArg (Path.steps text ++ ·) htail
      obtain ⟨d, hroute, hd⟩ := ih (get?_base hl text) hmore
      exact ⟨d, .follow ⟨by simp, hpass.2⟩ hget (by simp) hroute, hd⟩

/-- A slash behind a directory changes nothing. -/
theorem Route.append_slash (h : Route t .target links l steps p) {d : Location} (hp : p = .found d)
    (hd : t.get? d = some .dir) : Route t .target links l (steps ++ [.slash]) p := by
  induction h with
  | done links l => exact .slash (.done links l)
  | here _ ih => exact .here (ih hp)
  | slash _ ih => exact .slash (ih hp)
  | up _ ih => exact .up (ih hp)
  | vacant => cases hp
  | stop _ hget hstop _ =>
    cases hp
    rw [hget] at hd
    cases hd
    exact hstop.elim
  | enter hpass hget _ ih => exact .enter ⟨by simp, hpass.2⟩ hget (ih hp)
  | follow hpass hget _ _ ih =>
    rw [List.cons_append]
    refine .follow ⟨by simp, hpass.2⟩ hget (by simp) ?_
    rw [← List.append_assoc]
    exact ih hp

/-! ## The same walk in a larger tree -/

variable {u : Tree}

theorem Grows.dir (h : Grows t u) {k : Location} (hk : t.get? k = some .dir) :
    u.get? k = some .dir := by
  obtain ⟨e, he, rfl⟩ := h.entries k _ hk
  exact he

theorem Grows.link (h : Grows t u) {k : Location} {text : Text} (hk : t.get? k = some (.link text)) :
    u.get? k = some (.link text) := by
  obtain ⟨e, he, rfl⟩ := h.entries k _ hk
  exact he

theorem Stops.grows {e e' : Entry} (h : Stops aim e) (hgrows : e.Grows e') : Stops aim e' := by
  cases e with
  | dir => exact h.elim
  | link text => cases hgrows; exact h
  | file content => obtain ⟨_, rfl⟩ := hgrows; trivial
  | device => cases hgrows; trivial

theorem Stops.of_grows {e e' : Entry} (h : Stops aim e') (hgrows : e.Grows e') : Stops aim e := by
  cases e with
  | dir => cases hgrows; exact h
  | link text => cases hgrows; exact h
  | file content => trivial
  | device => trivial

/-- What a walk has found, it still finds after the tree has grown. -/
theorem Route.grow (h : Route t aim links l steps p) (hgrows : Grows t u) (hp : ∃ k, p = .found k) :
    Route u aim links l steps p := by
  induction h with
  | done links l => exact .done links l
  | here _ ih => exact .here (ih hp)
  | slash _ ih => exact .slash (ih hp)
  | up _ ih => exact .up (ih hp)
  | vacant =>
    obtain ⟨_, hp⟩ := hp
    cases hp
  | stop hpass hget hstop hlast =>
    obtain ⟨e', he', hee'⟩ := hgrows.entries _ _ hget
    exact .stop hpass he' (hstop.grows hee') hlast
  | enter hpass hget _ ih => exact .enter hpass (hgrows.dir hget) (ih hp)
  | follow hpass hget hgo _ ih => exact .follow hpass (hgrows.link hget) hgo (ih hp)

/-- What a path leads to, it still leads to after the tree has grown. -/
theorem Grows.locate (h : Grows t u) {path : Text} {k : Location}
    (hloc : t.locate aim path = .ok (.found k)) : u.locate aim path = .ok (.found k) := by
  obtain ⟨hwalk, hroute⟩ := locate_eq_ok_iff.1 hloc
  refine locate_eq_ok_iff.2 ⟨hwalk, ?_⟩
  rw [h.cwd]
  exact hroute.grow h ⟨k, rfl⟩

theorem Grows.isFile (h : Grows t u) {path : Text} (hfile : t.isFile path = true) :
    u.isFile path = true := by
  obtain ⟨k, content, hloc, hget⟩ := isFile_iff.1 hfile
  obtain ⟨more, hget'⟩ := h.file hget
  exact isFile_iff.2 ⟨k, content ++ more, h.locate hloc, hget'⟩

theorem Grows.leads (h : Grows t u) {path : Text} (hleads : t.leads path = true) :
    u.leads path = true := by
  obtain ⟨e, he⟩ := Option.isSome_iff_exists.1 hleads
  obtain ⟨k, hloc, hget⟩ := entry?_eq_some_iff.1 he
  obtain ⟨e', hget', _⟩ := h.entries k e hget
  exact Option.isSome_iff_exists.2 ⟨e', entry?_eq_some_iff.2 ⟨k, h.locate hloc, hget'⟩⟩

/-- When the free name that a walk ended at is taken, the walk goes on to the new entry. -/
theorem Route.fill (h : Route t aim links l steps p) (hgrows : Grows t u) {d : Location} {n : Text}
    (hp : p = .vacant d n)
    (hend : ∀ links rest, Passable aim n rest → isLast aim rest = true →
      Route u .target links d (.name n :: rest) (.found (n :: d))) :
    Route u .target links l steps (.found (n :: d)) := by
  induction h with
  | done => cases hp
  | here _ ih => exact .here (ih hp)
  | slash _ ih => exact .slash (ih hp)
  | up _ ih => exact .up (ih hp)
  | vacant hpass _ hlast =>
    cases hp
    exact hend _ _ hpass hlast
  | stop => cases hp
  | enter hpass hget _ ih => exact .enter ⟨by simp, hpass.2⟩ (hgrows.dir hget) (ih hp)
  | follow hpass hget _ _ ih =>
    exact .follow ⟨by simp, hpass.2⟩ (hgrows.link hget) (by simp) (ih hp)

/-- A file made at the free name that a path for a file ends at is what the path leads to. -/
theorem locate_insert_file {path : Text} {d : Location} {n : Text}
    (h : t.locate .file path = .ok (.vacant d n)) (bytes : List UInt8) :
    (t.insert d n (.file bytes)).locate .target path = .ok (.found (n :: d)) ∧
      (t.insert d n (.file bytes)).get? (n :: d) = some (.file bytes) := by
  obtain ⟨hwalk, hroute⟩ := locate_eq_ok_iff.1 h
  obtain ⟨hd, hn⟩ : t.get? d = some .dir ∧ t.get? (n :: d) = none := sound_of_locate h
  have hget : (t.insert d n (.file bytes)).get? (n :: d) = some (.file bytes) := by
    rw [get?_insert hd hn, if_pos rfl]
  refine ⟨locate_eq_ok_iff.2 ⟨hwalk, ?_⟩, hget⟩
  rw [cwd_insert]
  refine hroute.fill (adds_insert t d n (.file bytes)).grows rfl fun links rest hpass hlast => ?_
  rw [isLast_of_ne_directory (by simp)] at hlast
  rw [hlast]
  exact .stop ⟨by simp, hpass.2⟩ hget trivial rfl

end Docblocks.Tree
