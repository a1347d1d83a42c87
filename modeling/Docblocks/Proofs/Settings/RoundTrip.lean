/-
# Docblocks.Proofs.Settings.RoundTrip — settings that are written are read back.

Every setting is looked at as the JSON value it has when it is written (`Settings.node`), and a draft as
the values that it has so far (`Draft.node?`).  Seen so, putting members into a draft is the same for all
settings: the value of a member is the value of its setting, except that a pattern alone counts as a list
of one pattern (`Field.normal`).  Hence the settings of an object have, for each name, the value of the
member of that name, or the default (`node_ofMembers`).  That says both that written settings are read
back and what writing makes of the settings of any file.
-/
import Docblocks.Extraction
import Docblocks.Proofs.Json.RoundTrip
import Docblocks.Proofs.Text.Utf8

namespace Docblocks.Settings

open Docblocks.Json (Node Reads readValue readNested)

/-! ## Settings as values -/

/-- The JSON value of one setting. -/
def node (s : Settings) : Field → Node
  | .pattern => .array (s.patterns.map .string) none
  | .output => .string s.output
  | .opening => .string s.markers.opening
  | .closing => .string s.markers.closing
  | .line => .string s.markers.line
  | .strip => .string s.markers.strip
  | .unslash => .bool s.markers.unslash
  | .extension => .string s.extension

/-- The value of a setting in the form in which it is written: a pattern alone becomes a list. -/
def Field.normal : Field → Node → Node
  | .pattern, .string s => .array [.string s] none
  | _, node => node

/-- The JSON value of a setting, if the draft has it. -/
def Draft.node? (d : Draft) : Field → Option Node
  | .pattern => d.patterns?.map fun patterns => .array (patterns.map .string) none
  | .output => d.output?.map .string
  | .opening => d.opening?.map .string
  | .closing => d.closing?.map .string
  | .line => d.line?.map .string
  | .strip => d.strip?.map .string
  | .unslash => d.unslash?.map .bool
  | .extension => d.extension?.map .string

theorem normal_node (s : Settings) (f : Field) : f.normal (s.node f) = s.node f := by
  cases f <;> rfl

theorem map_string_injective {xs ys : List Text} (h : xs.map Node.string = ys.map Node.string) :
    xs = ys := by
  apply List.map_injective_iff.2 _ h
  intro x y hxy
  exact Node.string.inj hxy

/-- Settings with the same values are the same. -/
theorem eq_of_node {s s' : Settings} (h : ∀ f, s.node f = s'.node f) : s = s' := by
  obtain ⟨patterns, output, ⟨opening, closing, line, strip, unslash⟩, extension⟩ := s
  obtain ⟨patterns', output', ⟨opening', closing', line', strip', unslash'⟩, extension'⟩ := s'
  obtain rfl : patterns = patterns' := map_string_injective (Node.array.inj (h .pattern)).1
  obtain rfl : output = output' := Node.string.inj (h .output)
  obtain rfl : opening = opening' := Node.string.inj (h .opening)
  obtain rfl : closing = closing' := Node.string.inj (h .closing)
  obtain rfl : line = line' := Node.string.inj (h .line)
  obtain rfl : strip = strip' := Node.string.inj (h .strip)
  obtain rfl : unslash = unslash' := Node.bool.inj (h .unslash)
  obtain rfl : extension = extension' := Node.string.inj (h .extension)
  rfl

namespace Draft

theorem node?_empty (f : Field) : ({} : Draft).node? f = none := by
  cases f <;> rfl

theorem has_eq (d : Draft) (f : Field) : d.has f = (d.node? f).isSome := by
  cases f <;> simp only [has, node?, Option.isSome_map]

/-- What a draft does not have gets its default. -/
theorem node_settings (d : Draft) (f : Field) :
    d.settings.node f = (d.node? f).getD (({} : Settings).node f) := by
  obtain ⟨patterns?, output?, opening?, closing?, line?, strip?, unslash?, extension?⟩ := d
  cases f with
  | pattern => cases patterns? <;> rfl
  | output => cases output? <;> rfl
  | opening => cases opening? <;> rfl
  | closing => cases closing? <;> rfl
  | line => cases line? <;> rfl
  | strip => cases strip? <;> rfl
  | unslash => cases unslash? <;> rfl
  | extension => cases extension? <;> rfl

end Draft

/-! ## One value -/

theorem textOf_eq_ok {want : Want} {node : Node} {s : Text} (h : textOf want node = .ok s) :
    node = .string s := by
  cases node with
  | string value =>
    rw [textOf, Except.ok.injEq] at h
    rw [h]
  | _ => contradiction

theorem boolOf_eq_ok {node : Node} {b : Bool} (h : boolOf node = .ok b) : node = .bool b := by
  cases node with
  | bool value =>
    rw [boolOf, Except.ok.injEq] at h
    rw [h]
  | _ => contradiction

theorem mapM_text? {items : List Node} {texts : List Text} (h : items.mapM Node.text? = some texts) :
    items = texts.map .string := by
  induction items generalizing texts with
  | nil =>
    obtain rfl : texts = [] := by simpa using h.symm
    rfl
  | cons item items ih =>
    simp only [List.mapM_cons, Option.bind_eq_bind, Option.bind_eq_some_iff, Option.pure_def,
      Option.some.injEq] at h
    obtain ⟨text, htext, rest, hrest, rfl⟩ := h
    cases item with
    | string value =>
      obtain rfl : value = text := Option.some.inj htext
      rw [List.map_cons, ← ih hrest]
    | _ => contradiction

theorem mapM_text?_map (texts : List Text) : (texts.map Node.string).mapM Node.text? = some texts := by
  rw [List.mapM_map]
  show texts.mapM (fun text => (pure text : Option Text)) = some texts
  rw [List.mapM_pure, List.map_id']
  rfl

theorem patternsOf_eq_ok {node : Node} {texts : List Text} (h : patternsOf node = .ok texts) :
    Field.pattern.normal node = .array (texts.map .string) none := by
  cases node with
  | string value =>
    obtain rfl : [value] = texts := Except.ok.inj h
    rfl
  | array items stop =>
    cases stop with
    | some fault => contradiction
    | none =>
      simp only [patternsOf, Node.stop?] at h
      split at h
      · rename_i texts' hitems
        obtain rfl : texts' = texts := Except.ok.inj h
        rw [mapM_text? hitems]
        rfl
      · contradiction
  | object members stop =>
    cases stop <;> contradiction
  | _ => contradiction

theorem patternsOf_array (texts : List Text) :
    patternsOf (.array (texts.map .string) none) = .ok texts := by
  simp only [patternsOf, Node.stop?, mapM_text?_map]

namespace Draft

/-- A draft after the value of one setting was put into it: it has that value and the values it had. -/
structure Gains (d : Draft) (node : Node) (f : Field) (d' : Draft) : Prop where
  new : d'.node? f = some (f.normal node)
  old : ∀ g, g ≠ f → d'.node? g = d.node? g

theorem gains_put {d d' : Draft} {node : Node} {f : Field} (h : d.put node f = .ok d') :
    Gains d node f d' := by
  have hmap : ∀ {α : Type} {r : Except Fault α} {make : α → Draft}, make <$> r = .ok d' →
      ∃ v, r = .ok v ∧ make v = d' := by
    rintro α (fault | v) make hmake
    · contradiction
    · exact ⟨v, rfl, Except.ok.inj hmake⟩
  -- All cases are alike but for the field that is set and the kind of its value.
  cases f with
  | pattern =>
    obtain ⟨v, hv, rfl⟩ := hmap h
    refine ⟨(congrArg some (patternsOf_eq_ok hv)).symm, ?_⟩
    intro g hg
    cases g <;> trivial
  | unslash =>
    obtain ⟨v, hv, rfl⟩ := hmap h
    obtain rfl := boolOf_eq_ok hv
    refine ⟨rfl, ?_⟩
    intro g hg
    cases g <;> trivial
  | _ =>
    obtain ⟨v, hv, rfl⟩ := hmap h
    obtain rfl := textOf_eq_ok hv
    refine ⟨rfl, ?_⟩
    intro g hg
    cases g <;> trivial

/-- The value of a setting can be put. -/
theorem put_node (d : Draft) (s : Settings) (f : Field) : ∃ d', d.put (s.node f) f = .ok d' := by
  cases f with
  | pattern =>
    rw [put, node, patternsOf_array]
    exact ⟨_, rfl⟩
  | _ => exact ⟨_, rfl⟩

end Draft

/-! ## Members -/

theorem Field.name_of_ofName? {name : Text} {f : Field} (h : Field.ofName? name = some f) :
    name = f.name := by
  have hfound := List.find?_some h
  rw [decide_eq_true_eq] at hfound
  exact hfound.symm

theorem Field.name_injective {f g : Field} (h : f.name = g.name) : f = g := by
  have hf := Field.ofName?_name f
  rw [h, Field.ofName?_name] at hf
  exact (Option.some.inj hf).symm

theorem lookup_cons_of_ne {name name' : Text} {node : Node} {members : List (Text × Node)}
    (h : name' ≠ name) : ((name, node) :: members).lookup name' = members.lookup name' := by
  rw [List.lookup_cons, beq_eq_false_iff_ne.2 h]

namespace Draft

/-- What a draft has after the members of an object: what it had, and else the value of the first member
of that name.  Settings outside of the group stay as they are. -/
theorem node?_putAll {group : Field → Bool} {d d' : Draft} {members : List (Text × Node)}
    (h : putAll group d members = .ok d') (f : Field) :
    d'.node? f =
      if group f then (d.node? f).or ((members.lookup f.name).map f.normal) else d.node? f := by
  induction members generalizing d with
  | nil =>
    obtain rfl : d = d' := Except.ok.inj h
    rw [List.lookup_nil, Option.map_none, Option.or_none, ite_self]
  | cons member members ih =>
    obtain ⟨name, node⟩ := member
    simp only [putAll] at h
    split at h
    · rename_i hname
      have hne : f.name ≠ name := by
        rintro rfl
        rw [Field.ofName?_name] at hname
        contradiction
      rw [ih h, lookup_cons_of_ne hne]
    · rename_i field hfield
      obtain rfl := Field.name_of_ofName? hfield
      split_ifs at h with hgroup hhas
      · split at h
        · contradiction
        · rename_i d₁ hput
          have hgains := gains_put hput
          rw [ih h]
          by_cases heq : f = field
          · -- The draft did not have it, so the member decides, and no later one can.
            subst heq
            have hnone : d.node? f = none := by
              rw [has_eq, Option.isSome_iff_ne_none, not_not] at hhas
              exact hhas
            rw [if_pos hgroup, if_pos hgroup, hgains.new, hnone, List.lookup_cons_self]
            rfl
          · rw [hgains.old f heq, lookup_cons_of_ne (fun hname => heq (Field.name_injective hname))]
      · rw [ih h]
        by_cases heq : f = field
        · subst heq
          rw [if_neg hgroup, if_neg hgroup]
        · rw [lookup_cons_of_ne (fun hname => heq (Field.name_injective hname))]

/-- The values of distinct settings that a draft does not have can be put one after the other. -/
theorem putAll_nodes (s : Settings) (group : Field → Bool) {fields : List Field}
    (hnodup : fields.Nodup) {d : Draft} (hfree : ∀ f ∈ fields, group f → d.node? f = none) :
    ∃ d', putAll group d (fields.map fun f => (f.name, s.node f)) = .ok d' := by
  induction fields generalizing d with
  | nil => exact ⟨d, rfl⟩
  | cons f fields ih =>
    obtain ⟨hnotin, hnodup⟩ := List.nodup_cons.1 hnodup
    have hfields : ∀ g ∈ fields, group g → d.node? g = none :=
      fun g hg => hfree g (List.mem_cons_of_mem _ hg)
    simp only [List.map_cons, putAll, Field.ofName?_name]
    split_ifs with hgroup hhas
    · rw [has_eq, hfree f List.mem_cons_self hgroup] at hhas
      contradiction
    · obtain ⟨d', hput⟩ := put_node d s f
      rw [hput]
      apply ih hnodup
      intro g hg hgroup
      have hne : g ≠ f := fun heq => hnotin (heq ▸ hg)
      rw [(gains_put hput).old g hne]
      exact hfields g hg hgroup
    · exact ih hnodup hfields

end Draft

/-- Members give settings when their object is complete and both groups can be put. -/
theorem ofMembers_eq_ok {members : List (Text × Node)} {stop : Option Json.Fault} {s : Settings} :
    ofMembers members stop = .ok s ↔ stop = none ∧ ∃ d d',
      Draft.putAll (fun f => !f.isMark) {} members = .ok d ∧
        Draft.putAll Field.isMark d members = .ok d' ∧ d'.settings = s := by
  simp only [ofMembers, bind, Except.bind, throw, throwThe, MonadExceptOf.throw, pure, Except.pure]
  cases hfirst : Draft.putAll (fun f => !f.isMark) {} members with
  | error fault => simp
  | ok d =>
    cases stop with
    | some fault => simp
    | none =>
      cases hmarks : Draft.putAll Field.isMark d members with
      | error fault => simp [hmarks]
      | ok d' => simp [hmarks]

/-- The settings of an object: each has the value of the member of its name, or the default. -/
theorem node_ofMembers {members : List (Text × Node)} {stop : Option Json.Fault} {s : Settings}
    (h : ofMembers members stop = .ok s) (f : Field) :
    s.node f = ((members.lookup f.name).map f.normal).getD (({} : Settings).node f) := by
  obtain ⟨-, d, d', hfirst, hmarks, rfl⟩ := ofMembers_eq_ok.1 h
  rw [Draft.node_settings, Draft.node?_putAll hmarks, Draft.node?_putAll hfirst, Draft.node?_empty]
  -- Each of the two groups is put in one of the two passes.
  cases f.isMark <;> rfl

/-- The members of written settings. -/
def members (s : Settings) : List (Text × Node) :=
  Field.all.map fun f => (f.name, s.node f)

theorem lookup_members (s : Settings) (f : Field) : s.members.lookup f.name = some (s.node f) := by
  cases f <;> rfl

theorem ofMembers_members (s : Settings) : ofMembers s.members none = .ok s := by
  have hnodup : Field.all.Nodup := by decide
  obtain ⟨d, hfirst⟩ := Draft.putAll_nodes s (fun f => !f.isMark) hnodup
    (fun f _ _ => Draft.node?_empty f)
  obtain ⟨d', hmarks⟩ := Draft.putAll_nodes s Field.isMark hnodup
    (show ∀ f ∈ Field.all, f.isMark → d.node? f = none by
      intro f _ hmark
      rw [Draft.node?_putAll hfirst, hmark]
      exact Draft.node?_empty f)
  have hok : ofMembers s.members none = .ok d'.settings :=
    ofMembers_eq_ok.2 ⟨rfl, d, d', hfirst, hmarks, rfl⟩
  have heq : d'.settings = s := by
    apply eq_of_node
    intro f
    rw [node_ofMembers hok, lookup_members, Option.map_some, Option.getD_some, normal_node]
  rw [hok, heq]

/-! ## Texts and files -/

theorem reads_field (s : Settings) (f : Field) :
    Reads (readNested 126) (s.writeField f) (s.node f) := by
  cases f with
  | pattern => exact Json.reads_array fun pattern _ => Json.reads_string _ pattern
  | unslash => exact Json.reads_bool _ s.markers.unslash
  | _ => exact Json.reads_string _ _

theorem read_write (s : Settings) : Json.read s.write = (.object s.members none, []) := by
  have hobject : Reads (readValue (some (readNested 126))) s.write (.object s.members none) :=
    Json.reads_object fun f _ => reads_field s f
  have hread := hobject.read []
  rw [List.append_nil] at hread
  exact hread

/-- A file holds one complete object with the given members, and only blanks behind it. -/
def Holds (t : Tree) (path : Text) (members : List (Text × Node)) : Prop :=
  ∃ bytes text rest, t.read path = .ok bytes ∧ Text.Utf8.decode? bytes = some text ∧
    Json.read text = (.object members none, rest) ∧ Json.skipBlanks rest = []

theorem ofNode_eq_ok {node : Node} {s : Settings} :
    ofNode node = .ok s ↔ ∃ members, node = .object members none ∧ ofMembers members none = .ok s := by
  constructor
  · intro h
    cases node with
    | object members stop =>
      obtain ⟨rfl, -⟩ := ofMembers_eq_ok.1 h
      exact ⟨members, rfl, h⟩
    | _ => contradiction
  · rintro ⟨members, rfl, h⟩
    exact h

theorem read_eq_ok {text : Text} {s : Settings} :
    read text = .ok s ↔ ∃ node rest, Json.read text = (node, rest) ∧
      ofNode node = .ok s ∧ Json.skipBlanks rest = [] := by
  rcases hread : Json.read text with ⟨node, rest⟩
  simp only [read, hread, bind, Except.bind, throw, throwThe, MonadExceptOf.throw, pure, Except.pure]
  cases hnode : ofNode node with
  | error fault => simp [hnode]
  | ok s' => cases hrest : Json.skipBlanks rest <;> simp [hnode, hrest]

theorem load_eq_ok {t : Tree} {path : Text} {s : Settings} :
    load t path = .ok s ↔ ∃ members, Holds t path members ∧ ofMembers members none = .ok s := by
  constructor
  · intro h
    rw [load] at h
    split at h
    · contradiction
    · rename_i bytes hbytes
      split at h
      · contradiction
      · rename_i text htext
        split at h
        · contradiction
        · rename_i s' hread
          obtain rfl : s' = s := Except.ok.inj h
          obtain ⟨node, rest, hjson, hnode, hrest⟩ := read_eq_ok.1 hread
          obtain ⟨members, rfl, hmembers⟩ := ofNode_eq_ok.1 hnode
          exact ⟨members, ⟨bytes, text, rest, hbytes, htext, hjson, hrest⟩, hmembers⟩
  · rintro ⟨members, ⟨bytes, text, rest, hbytes, htext, hjson, hrest⟩, hmembers⟩
    have hread : read text = .ok s := read_eq_ok.2 ⟨_, rest, hjson, hmembers, hrest⟩
    simp only [load, hbytes, htext, hread]

theorem holds_write {s : Settings} {t : Tree} {path : Text}
    (h : t.read path = .ok (Text.Utf8.encode s.write)) : Holds t path s.members :=
  ⟨_, s.write, [], h, Text.Utf8.decode?_encode s.write, read_write s, rfl⟩

/-- Settings that are written to a file are read back from it, whatever their texts are.  So writing the
settings of any file that can be read gives a file with the same settings, in a normal form: it has a
member for every setting, in a fixed order, with the value that the old file gives or the default, and a
pattern that stood alone has become a list. -/
theorem load_write :
    (∀ (s : Settings) (t : Tree) (path : Text),
      t.read path = .ok (Text.Utf8.encode s.write) → load t path = .ok s) ∧
    ∀ (s : Settings) (t : Tree) (path : Text), load t path = .ok s →
      ∃ members, Holds t path members ∧ ∀ (t' : Tree) (path' : Text),
        t'.read path' = .ok (Text.Utf8.encode s.write) →
          load t' path' = load t path ∧
          Holds t' path' (Field.all.map fun f =>
            (f.name, ((members.lookup f.name).map f.normal).getD (({} : Settings).node f))) := by
  have hback : ∀ (s : Settings) (t : Tree) (path : Text),
      t.read path = .ok (Text.Utf8.encode s.write) → load t path = .ok s :=
    fun s t path h => load_eq_ok.2 ⟨s.members, holds_write h, ofMembers_members s⟩
  refine ⟨hback, ?_⟩
  intro s t path hload
  obtain ⟨members, hholds, hmembers⟩ := load_eq_ok.1 hload
  refine ⟨members, hholds, ?_⟩
  intro t' path' hread
  refine ⟨(hback s t' path' hread).trans hload.symm, ?_⟩
  have hnormal : s.members = Field.all.map fun f =>
      (f.name, ((members.lookup f.name).map f.normal).getD (({} : Settings).node f)) := by
    apply List.map_congr_left
    intro f _
    rw [node_ofMembers hmembers]
  rw [← hnormal]
  exact holds_write hread

/-- A settings file with a pattern alone, a name that is no setting and texts that need escapes. -/
def sparseFile : Text :=
  ("\x7b\"pattern\": \"src/\\u0001*\", \"lang\": [0], " ++
    "\"strip\": \"\\\"\\\\\\n\\uD83D\\uDE00\", \"end\": \"\"\x7d\n").toList

/-- The settings that it gives. -/
def sparseSettings : Settings :=
  { patterns := ["src/\x01*".toList], markers := { strip := "\"\\\n😀".toList, closing := [] } }

/-- A tree with that file and with its settings written out. -/
def sparseTree : Tree :=
  Tree.root
    |>.insert [] "old.json".toList (.file (Text.Utf8.encode sparseFile))
    |>.insert [] "new.json".toList (.file (Text.Utf8.encode sparseSettings.write))

/-- The file gives the settings, and so does what is written of them: all eight, the pattern in a list. -/
theorem load_write_sparseTree :
    load sparseTree "old.json".toList = .ok sparseSettings ∧
      load sparseTree "new.json".toList = .ok sparseSettings ∧
      ∃ members, Holds sparseTree "old.json".toList members ∧
        Holds sparseTree "new.json".toList (Field.all.map fun f =>
          (f.name, ((members.lookup f.name).map f.normal).getD (({} : Settings).node f))) := by
  have hold : load sparseTree "old.json".toList = .ok sparseSettings := by
    have hsome : (load sparseTree "old.json".toList).toOption = some sparseSettings := by
      decide +kernel
    cases hload : load sparseTree "old.json".toList with
    | error e =>
      rw [hload] at hsome
      contradiction
    | ok s =>
      rw [hload] at hsome
      rw [Option.some.inj hsome]
  have hnew : sparseTree.read "new.json".toList = .ok (Text.Utf8.encode sparseSettings.write) := by
    decide +kernel
  obtain ⟨members, hmembers, hnormal⟩ := load_write.2 sparseSettings sparseTree _ hold
  exact ⟨hold, load_write.1 _ _ _ hnew, members, hmembers, (hnormal _ _ hnew).2⟩

end Docblocks.Settings
