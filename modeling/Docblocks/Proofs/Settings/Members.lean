/-
# Docblocks.Proofs.Settings.Members — settings depend on the members that name them.

An object is read in two passes, one for the marks of a block and one for the other settings, and each pass
looks only at the members of its own settings.  When no setting is given twice, the order of the members and
all members in between are therefore without effect: the settings can be read exactly when every member that
names a setting has a value of the right kind (`ofMembers_isOk_iff`), and then each setting has the value of
its member, or its default (`gives_ofMembers`).  Which fault is reported does depend on the order.  Members
in between are still read: an object with a value that cannot be read is not complete, and a text that is no
complete object gives no settings (`exists_spells`).
-/
import Docblocks.Proofs.Settings.RoundTrip

namespace Docblocks.Settings

open Docblocks.Json (Node)

/-! ## Values of the right kind -/

/-- A value of the right kind for a setting. -/
inductive Field.Fits : Field → Node → Prop
  | patterns (texts : List Text) : Fits .pattern (.array (texts.map .string) none)
  | unslash (value : Bool) : Fits .unslash (.bool value)
  | text {f : Field} (hf : f ≠ .unslash) (text : Text) : Fits f (.string text)

theorem fits_node (s : Settings) (f : Field) : f.Fits (s.node f) := by
  cases f with
  | pattern => exact .patterns s.patterns
  | unslash => exact .unslash s.markers.unslash
  | _ => exact .text (by decide) _

/-- A pattern alone fits, and so does the list of it. -/
theorem Field.fits_normal {f : Field} {v : Node} : f.Fits (f.normal v) ↔ f.Fits v := by
  cases f with
  | pattern =>
    cases v with
    | string text => exact ⟨fun _ => .text (by decide) text, fun _ => .patterns [text]⟩
    | _ => exact Iff.rfl
  | _ => exact Iff.rfl

/-- A value can be put exactly when it is of the right kind. -/
theorem Draft.put_isOk_iff {d : Draft} {v : Node} {f : Field} :
    (∃ d', d.put v f = .ok d') ↔ f.Fits v := by
  constructor
  · rintro ⟨d', hput⟩
    have hnode : d'.settings.node f = f.normal v := by
      rw [node_settings, (gains_put hput).new, Option.getD_some]
    rw [← Field.fits_normal, ← hnode]
    exact fits_node _ f
  · intro hfits
    cases hfits with
    | patterns texts =>
      rw [put, patternsOf_array]
      exact ⟨_, rfl⟩
    | unslash value => exact ⟨_, rfl⟩
    | text hf text =>
      cases f with
      | unslash => exact absurd rfl hf
      | _ => exact ⟨_, rfl⟩

/-! ## Members that are not repeated -/

/-- No setting is named by two members. -/
def Unrepeated (members : List (Text × Node)) : Prop :=
  ∀ f : Field, (members.map Prod.fst).count f.name ≤ 1

variable {members members' : List (Text × Node)}

theorem Unrepeated.tail {member : Text × Node} (h : Unrepeated (member :: members)) :
    Unrepeated members := by
  intro f
  refine Nat.le_trans ?_ (h f)
  rw [List.map_cons]
  exact List.count_le_count_cons

/-- The setting of the first member is not named again. -/
theorem Unrepeated.head {f : Field} {v : Node} (h : Unrepeated ((f.name, v) :: members)) :
    f.name ∉ members.map Prod.fst := by
  have hcount := h f
  rw [List.map_cons, List.count_cons_self] at hcount
  exact List.count_eq_zero.1 (by omega)

/-- The member of a setting is the one that a look-up finds. -/
theorem Unrepeated.mem_iff (h : Unrepeated members) {f : Field} {v : Node} :
    (f.name, v) ∈ members ↔ members.lookup f.name = some v := by
  induction members with
  | nil => simp
  | cons member members ih =>
    obtain ⟨name, w⟩ := member
    by_cases hname : f.name = name
    · subst hname
      rw [List.lookup_cons_self, List.mem_cons, Prod.mk.injEq, Option.some.injEq]
      constructor
      · rintro (⟨-, rfl⟩ | hmem)
        · rfl
        · exact absurd (List.mem_map_of_mem hmem) h.head
      · rintro rfl
        exact Or.inl ⟨rfl, rfl⟩
    · rw [lookup_cons_of_ne hname, ← ih h.tail, List.mem_cons, Prod.mk.injEq]
      exact or_iff_right fun heq => hname heq.1

/-- One pass goes through exactly when the members of its group have values of the right kind, provided that
the draft has none of them yet. -/
theorem Draft.putAll_isOk_iff (group : Field → Bool) {d : Draft} (hmembers : Unrepeated members)
    (hfree : ∀ f, group f = true → f.name ∈ members.map Prod.fst → d.node? f = none) :
    (∃ d', putAll group d members = .ok d') ↔
      ∀ f v, group f = true → (f.name, v) ∈ members → f.Fits v := by
  induction members generalizing d with
  | nil => simp [putAll]
  | cons member members ih =>
    obtain ⟨name, w⟩ := member
    have htail : ∀ f, group f = true → f.name ∈ members.map Prod.fst → d.node? f = none :=
      fun f hf hmem => hfree f hf (List.mem_cons_of_mem _ hmem)
    -- A member that the pass does not look at says nothing about the values of the others.
    have hskip : (∀ f, group f = true → f.name ≠ name) →
        ((∃ d', putAll group d members = .ok d') ↔
          ∀ f v, group f = true → (f.name, v) ∈ (name, w) :: members → f.Fits v) := by
      intro hother
      rw [ih hmembers.tail htail]
      refine forall_congr' fun f => forall_congr' fun v => forall_congr' fun hf => ?_
      rw [List.mem_cons, Prod.mk.injEq, or_iff_right fun heq => hother f hf heq.1]
    rw [putAll]
    cases hname : Field.ofName? name with
    | none =>
      apply hskip
      rintro f - rfl
      rw [Field.ofName?_name] at hname
      cases hname
    | some field =>
      obtain rfl := Field.name_of_ofName? hname
      dsimp only
      split_ifs with hgroup hhas
      · -- The draft does not have it yet.
        rw [has_eq, hfree field hgroup List.mem_cons_self] at hhas
        cases hhas
      · cases hput : d.put w field with
        | error fault =>
          have hnot : ¬ field.Fits w := by
            intro hfits
            obtain ⟨d', hok⟩ := put_isOk_iff.2 hfits
            rw [hput] at hok
            cases hok
          constructor
          · rintro ⟨d', hok⟩
            cases hok
          · intro hall
            exact absurd (hall field w hgroup List.mem_cons_self) hnot
        | ok d₁ =>
          have hfits : field.Fits w := put_isOk_iff.1 ⟨d₁, hput⟩
          have hfree₁ : ∀ f, group f = true → f.name ∈ members.map Prod.fst → d₁.node? f = none := by
            intro f hf hmem
            have hne : f ≠ field := fun heq => hmembers.head (heq ▸ hmem)
            rw [(gains_put hput).old f hne]
            exact htail f hf hmem
          rw [ih hmembers.tail hfree₁]
          refine ⟨fun hall f v hf hmem => ?_, fun hall f v hf hmem => ?_⟩
          · rcases List.mem_cons.1 hmem with heq | hmem
            · obtain ⟨hfield, rfl⟩ := Prod.mk.inj heq
              rw [Field.name_injective hfield]
              exact hfits
            · exact hall f v hf hmem
          · exact hall f v hf (List.mem_cons_of_mem _ hmem)
      · apply hskip
        intro f hf hfield
        rw [Field.name_injective hfield] at hf
        exact hgroup hf

/-- The settings of a complete object can be read exactly when every member that names a setting has a value
of the right kind. -/
theorem ofMembers_isOk_iff (hmembers : Unrepeated members) :
    (∃ s, ofMembers members none = .ok s) ↔ ∀ f v, (f.name, v) ∈ members → Field.Fits f v := by
  have hothers := Draft.putAll_isOk_iff (fun f => !f.isMark) hmembers fun f _ _ => Draft.node?_empty f
  have hmarks : ∀ {d}, Draft.putAll (fun f => !f.isMark) {} members = .ok d →
      ((∃ d', Draft.putAll Field.isMark d members = .ok d') ↔
        ∀ f v, f.isMark = true → (f.name, v) ∈ members → Field.Fits f v) := by
    intro d hd
    apply Draft.putAll_isOk_iff Field.isMark hmembers
    intro f hmark _
    rw [Draft.node?_putAll hd, hmark]
    exact Draft.node?_empty f
  constructor
  · rintro ⟨s, hs⟩ f v hmem
    obtain ⟨-, d, d', hd, hd', -⟩ := ofMembers_eq_ok.1 hs
    cases hmark : f.isMark with
    | false => exact hothers.1 ⟨d, hd⟩ f v (by rw [hmark]; rfl) hmem
    | true => exact (hmarks hd).1 ⟨d', hd'⟩ f v hmark hmem
  · intro hfits
    obtain ⟨d, hd⟩ := hothers.2 fun f v _ => hfits f v
    obtain ⟨d', hd'⟩ := (hmarks hd).2 fun f v _ => hfits f v
    exact ⟨_, ofMembers_eq_ok.2 ⟨rfl, d, d', hd, hd', rfl⟩⟩

/-- What an object says about settings: each has the value of the member that names it, or its default. -/
structure Gives (members : List (Text × Node)) (s : Settings) : Prop where
  present : ∀ f v, (f.name, v) ∈ members → s.node f = f.normal v
  absent : ∀ f, f.name ∉ members.map Prod.fst → s.node f = ({} : Settings).node f

theorem gives_ofMembers (hmembers : Unrepeated members) {s : Settings}
    (h : ofMembers members none = .ok s) : Gives members s := by
  refine ⟨fun f v hmem => ?_, fun f hnot => ?_⟩
  · rw [node_ofMembers h, hmembers.mem_iff.1 hmem, Option.map_some, Option.getD_some]
  · have hnone : members.lookup f.name = none := by
      rw [List.lookup_eq_none_iff]
      intro member hmember
      rw [bne_iff_ne]
      rintro heq
      exact hnot (heq ▸ List.mem_map_of_mem hmember)
    rw [node_ofMembers h, hnone, Option.map_none, Option.getD_none]

/-! ## Objects that agree -/

/-- Two objects give the same settings the same values, where a pattern alone counts as a list of it.  Nothing
is said about the order of the members or about members that name no setting. -/
def Agree (members members' : List (Text × Node)) : Prop :=
  ∀ f : Field, (members.lookup f.name).map f.normal = (members'.lookup f.name).map f.normal

theorem Agree.symm (h : Agree members members') : Agree members' members :=
  fun f => (h f).symm

/-- If the members of one object have values of the right kind, so have those of the other. -/
theorem Agree.fits (h : Agree members members') (hmembers : Unrepeated members)
    (hmembers' : Unrepeated members') (hfits : ∀ f v, (f.name, v) ∈ members → Field.Fits f v) :
    ∀ f v, (f.name, v) ∈ members' → Field.Fits f v := by
  intro f v hmem
  have hsome := h f
  rw [hmembers'.mem_iff.1 hmem] at hsome
  obtain ⟨w, hw, hnormal⟩ := Option.map_eq_some_iff.1 hsome
  rw [← Field.fits_normal, ← hnormal, Field.fits_normal]
  exact hfits f w (hmembers.mem_iff.2 hw)

theorem Agree.settings_eq (h : Agree members members') {s s' : Settings}
    (hs : ofMembers members none = .ok s) (hs' : ofMembers members' none = .ok s') : s = s' := by
  apply eq_of_node
  intro f
  rw [node_ofMembers hs, node_ofMembers hs', h f]

/-- Two objects that agree both give no settings, or both give the same. -/
theorem Agree.ofMembers_eq (h : Agree members members') (hmembers : Unrepeated members)
    (hmembers' : Unrepeated members') :
    ((∃ fault, ofMembers members none = .error fault) ∧ ∃ fault, ofMembers members' none = .error fault) ∨
      ∃ s, ofMembers members none = .ok s ∧ ofMembers members' none = .ok s := by
  have hboth : (∃ s, ofMembers members none = .ok s) ↔ ∃ s, ofMembers members' none = .ok s := by
    rw [ofMembers_isOk_iff hmembers, ofMembers_isOk_iff hmembers']
    exact ⟨h.fits hmembers hmembers', h.symm.fits hmembers' hmembers⟩
  cases hs : ofMembers members none with
  | ok s =>
    obtain ⟨s', hs'⟩ := hboth.1 ⟨s, hs⟩
    obtain rfl := h.settings_eq hs hs'
    exact Or.inr ⟨s, rfl, hs'⟩
  | error fault =>
    cases hs' : ofMembers members' none with
    | error fault' => exact Or.inl ⟨⟨fault, rfl⟩, ⟨fault', rfl⟩⟩
    | ok s =>
      obtain ⟨s', hok⟩ := hboth.2 ⟨s, hs'⟩
      rw [hs] at hok
      cases hok

/-- A text is one complete object with the given members; around and between its parts there may be blanks. -/
def Spells (text : Text) (members : List (Text × Node)) : Prop :=
  ∃ rest, Json.read text = (.object members none, rest) ∧ Json.skipBlanks rest = []

theorem Spells.read_eq {text : Text} (h : Spells text members) : read text = ofMembers members none := by
  obtain ⟨rest, hread, hrest⟩ := h
  rw [read, hread]
  show (ofMembers members none >>= fun s =>
    if (Json.skipBlanks rest).isEmpty then return s else throw (.json .malformed)) = _
  rw [hrest]
  exact bind_pure _

/-- The text of an object, from its parts: each a name, a written value and the value. -/
def objectText (parts : List (Text × Text × Node)) : Text :=
  Json.writeObject (parts.map fun part => (part.1, part.2.1))

/-- The members of an object, from its parts. -/
def objectMembers (parts : List (Text × Text × Node)) : List (Text × Node) :=
  parts.map fun part => (part.1, part.2.2)

/-- A written object spells its members, if their values are written as they are read. -/
theorem spells_objectText {parts : List (Text × Text × Node)}
    (h : ∀ part ∈ parts, Json.Reads (Json.readNested 126) part.2.1 part.2.2) :
    Spells (objectText parts) (objectMembers parts) := by
  have hobject : Json.Reads (Json.readValue (some (Json.readNested 126))) (objectText parts)
      (.object (objectMembers parts) none) := Json.reads_object h
  have hread := hobject.read []
  rw [List.append_nil] at hread
  exact ⟨[], hread, rfl⟩

/-- Settings come from complete objects alone. -/
theorem exists_spells {text : Text} {s : Settings} (h : read text = .ok s) :
    ∃ members, Spells text members := by
  obtain ⟨node, rest, hread, hnode, hrest⟩ := read_eq_ok.1 h
  obtain ⟨members, rfl, -⟩ := ofNode_eq_ok.1 hnode
  exact ⟨members, rest, hread, hrest⟩

/-- **Settings depend on nothing but the members that name them.**  Two complete objects that repeat no
setting and agree on all of them, in whatever order and among whatever other members, both give no settings
or both give the same: each setting that an object names has the value given there, each other one its
default.  They give some exactly when all those values are of the right kind.  A text that cannot be read as
a complete object gives none. -/
theorem read_of_agree (text text' : Text) :
    (∀ members members', Spells text members → Spells text' members' → Unrepeated members →
      Unrepeated members' → Agree members members' →
        (((∃ fault, read text = .error fault) ∧ ∃ fault, read text' = .error fault) ∨
          ∃ s, read text = .ok s ∧ read text' = .ok s ∧ Gives members s ∧ Gives members' s) ∧
        ((∃ s, read text = .ok s) ↔ ∀ f v, (f.name, v) ∈ members → Field.Fits f v)) ∧
    ((∀ members, ¬ Spells text members) → ∃ fault, read text = .error fault) := by
  constructor
  · intro members members' h h' hmembers hmembers' hagree
    rw [h.read_eq, h'.read_eq]
    refine ⟨(hagree.ofMembers_eq hmembers hmembers').imp_right ?_, ofMembers_isOk_iff hmembers⟩
    rintro ⟨s, hs, hs'⟩
    exact ⟨s, hs, hs', gives_ofMembers hmembers hs, gives_ofMembers hmembers' hs'⟩
  · intro hspells
    cases hread : read text with
    | error fault => exact ⟨fault, rfl⟩
    | ok s =>
      obtain ⟨members, hmembers⟩ := exists_spells hread
      exact absurd hmembers (hspells members)

/-- An object with an empty strip text, a list of one pattern, and twice a name that is no setting. -/
def busyParts : List (Text × Text × Node) :=
  [(Field.strip.name, Json.writeString [], .string []),
    (['x'], Json.writeArray ([true, false].map Json.writeBool), .array ([true, false].map .bool) none),
    (Field.pattern.name, Json.writeArray (["*.js".toList].map Json.writeString),
      .array (["*.js".toList].map .string) none),
    (['x'], Json.writeString "end".toList, .string "end".toList),
    (Field.output.name, Json.writeString "docs".toList, .string "docs".toList)]

/-- An object with the same settings in another order, the pattern alone, and nothing else. -/
def bareParts : List (Text × Text × Node) :=
  [(Field.output.name, Json.writeString "docs".toList, .string "docs".toList),
    (Field.pattern.name, Json.writeString "*.js".toList, .string "*.js".toList),
    (Field.strip.name, Json.writeString [], .string [])]

theorem read_of_agree_busyParts :
    ∃ s, read (objectText busyParts) = .ok s ∧ read (objectText bareParts) = .ok s ∧
      Gives (objectMembers busyParts) s ∧ Gives (objectMembers bareParts) s ∧
      s = { patterns := ["*.js".toList], output := "docs".toList, markers := { strip := [] } } := by
  have hbusy : Spells (objectText busyParts) (objectMembers busyParts) := by
    apply spells_objectText
    simp only [busyParts, List.forall_mem_cons]
    refine ⟨Json.reads_string _ _, Json.reads_array fun b _ => Json.reads_bool _ b,
      Json.reads_array fun pattern _ => Json.reads_string _ pattern, Json.reads_string _ _,
      Json.reads_string _ _, by simp⟩
  have hbare : Spells (objectText bareParts) (objectMembers bareParts) := by
    apply spells_objectText
    simp only [bareParts, List.forall_mem_cons]
    exact ⟨Json.reads_string _ _, Json.reads_string _ _, Json.reads_string _ _, by simp⟩
  have hunrepeated : Unrepeated (objectMembers busyParts) := by
    intro f
    cases f <;> decide +kernel
  have hunrepeated' : Unrepeated (objectMembers bareParts) := by
    intro f
    cases f <;> decide +kernel
  have hagree : Agree (objectMembers busyParts) (objectMembers bareParts) := by
    intro f
    cases f <;> rfl
  have hok : (read (objectText bareParts)).toOption =
      some { patterns := ["*.js".toList], output := "docs".toList, markers := { strip := [] } } := by
    decide +kernel
  obtain ⟨⟨-, fault, hfault⟩ | ⟨s, hs, hs', hgives, hgives'⟩, -⟩ :=
    (read_of_agree _ _).1 _ _ hbusy hbare hunrepeated hunrepeated' hagree
  · rw [hfault] at hok
    cases hok
  · rw [hs'] at hok
    exact ⟨s, hs, hs', hgives, hgives', Option.some.inj hok⟩

/-- A member that names no setting is read like any other, so its value can make an object unreadable: here
a number beyond the range of a double, in an object that agrees with the empty one on all settings. -/
theorem read_refuses_other_member :
    Field.ofName? ['x'] = none ∧ read (Json.writeObject []) = .ok {} ∧
      read (Json.writeObject [(['x'], "1e999".toList)]) = .error (.json .malformed) :=
  ⟨by decide, rfl, rfl⟩

end Docblocks.Settings
