import PipelineConfig.Proofs.Rendering

/-!
# Sound node definitions

A node is defined by an object of attributes. Which attributes can be written, with which
values, and which of them go with which kind, is stated here without the reader. The main
statement is that the reader accepts the attributes of a node exactly if they are sound,
and that what it leaves to be read below the node is what was written there.
-/

namespace PipelineConfig

theorem Kind.ofName?_eq_some_iff {name : String} {kind : Kind} :
    ofName? name = some kind ↔ name = kind.name := by
  constructor
  · intro h
    rw [ofName?] at h
    have hname := List.find?_some h
    exact (eq_of_beq hname).symm
  · rintro rfl
    cases kind <;> rfl

theorem Kind.ofJson_string_iff {s : String} {kind : Kind} :
    ofJson (.string s) = .ok kind ↔ Json.string s = .string kind.name := by
  rw [Json.string.injEq, ← ofName?_eq_some_iff, ofJson, ofJson.named]
  cases ofName? s <;> simp

theorem Kind.isNumeric_iff {kind : Kind} :
    kind.isNumeric = true ↔ kind = .integer ∨ kind = .number := by
  cases kind <;> simp [isNumeric]

namespace Attribute

/-- The values that can be written for an attribute. A null says as much as leaving the
attribute out, where it is allowed. -/
def Takes : Attribute → Json → Prop
  | type, v => ∃ kind : Kind, v = .string kind.name
  | title, v | description, v | direction, v => v = .null ∨ ∃ s, v = .string s
  | required, v => ∃ b, v = .bool b
  | uniqueItems, v => v = .null ∨ ∃ b, v = .bool b
  | enum, v => v = .null ∨ ∃ values, v = .array values
  | minimum, v | maximum, v => v = .null ∨ ∃ n, v = .number n
  | properties, v => v = .null ∨ ∃ fields, v = .object fields
  | default, _ | items, _ => True

theorem eq_name_of_ofName? {name : String} {a : Attribute} (h : ofName? name = some a) :
    name = a.name := by
  rw [ofName?] at h
  have hname := List.find?_some h
  exact (eq_of_beq hname).symm

theorem name_injective {a b : Attribute} (h : a.name = b.name) : a = b := by
  have hb := ofName?_name b
  rw [← h, ofName?_name] at hb
  exact Option.some.inj hb

theorem check_type_iff {v : Json} :
    type.check v = .ok () ↔ ∃ kind, Kind.ofJson v = .ok kind := by
  rw [check]
  cases Kind.ofJson v <;> simp [bind, Except.bind, pure, Except.pure]

/-- The reader takes the values that can be written, and no others. A kind is taken here
only by its name. -/
theorem check_eq_ok_iff {a : Attribute} {v : Json} (h : a = type → ∃ s, v = .string s) :
    a.check v = .ok () ↔ a.Takes v := by
  cases a with
  | type =>
    obtain ⟨s, rfl⟩ := h rfl
    exact check_type_iff.trans (exists_congr fun kind => Kind.ofJson_string_iff)
  | title | description | default | required | enum | minimum | maximum | items | uniqueItems |
    properties | direction => cases v <;> simp [check, fits, Takes]

end Attribute

/-- The attribute is written among the members, and not as null. -/
def Given (members : List (String × Json)) (a : Attribute) : Prop :=
  ∃ v, (a.name, v) ∈ members ∧ v.isNull = false

/-- The members are sound attributes of a node of the given kind. -/
structure IsNode (members : List (String × Json)) (kind : Kind) : Prop where
  /-- The kind is named. -/
  type : (Attribute.type.name, .string kind.name) ∈ members
  /-- Only attributes are written, and only with values that they can have. -/
  takes : ∀ name v, (name, v) ∈ members → ∃ a : Attribute, a.name = name ∧ a.Takes v
  /-- Arrays and no others describe their elements. -/
  items : Given members .items ↔ kind = .array
  /-- Only arrays say whether their elements are distinct. -/
  uniqueItems : Given members .uniqueItems → kind = .array
  /-- Objects and no others declare fields. -/
  properties : Given members .properties ↔ kind = .object
  /-- Only single values are chosen from a list. -/
  enum : Given members .enum → kind ≠ .object ∧ kind ≠ .array
  /-- The list is not empty. -/
  allowed : (Attribute.enum.name, .array []) ∉ members
  /-- Only numbers are bounded below. -/
  minimum : Given members .minimum → kind = .integer ∨ kind = .number
  /-- Only numbers are bounded above. -/
  maximum : Given members .maximum → kind = .integer ∨ kind = .number
  /-- The bounds are in order. -/
  bounds : ∀ least greatest, (Attribute.minimum.name, .number least) ∈ members →
    (Attribute.maximum.name, .number greatest) ∈ members → least.order ≤ greatest.order

/-- The node is an object that names its kind, if it tells it, by a text. -/
def Json.PlainNode (node : Json) : Prop :=
  ∃ members, node = .object members ∧
    ∀ v, (Attribute.type.name, v) ∈ members → ∃ s, v = .string s

/-- The value defines a node, whatever is defined below it. -/
def Json.DefinesNode (node : Json) : Prop :=
  ∃ members kind, node = .object members ∧ IsNode members kind

namespace Entries

variable {members : List (String × Json)} {entries : Entries} {a : Attribute} {v : Json}

/-- The entries of an object are its members, if all of them are attributes with values
that the reader takes. -/
theorem ofMembers_eq_ok_iff : ofMembers members = .ok entries ↔
    members = entries.map (fun e => (e.1.name, e.2)) ∧
      ∀ a v, (a, v) ∈ entries → a.check v = .ok () := by
  constructor
  · intro h
    induction members generalizing entries with
    | nil =>
      cases h
      exact ⟨rfl, by simp⟩
    | cons head rest ih =>
      obtain ⟨name, w⟩ := head
      rw [ofMembers] at h
      split at h
      · cases h
      · next b hname =>
        obtain ⟨_, hc, h⟩ := bind_eq_ok_iff.mp h
        obtain ⟨others, ho, h⟩ := bind_eq_ok_iff.mp h
        cases h
        obtain ⟨rfl, hall⟩ := ih ho
        rw [Attribute.eq_name_of_ofName? hname]
        refine ⟨rfl, fun a v hm => ?_⟩
        rcases List.mem_cons.mp hm with he | hm
        · cases he
          exact hc
        · exact hall a v hm
  · rintro ⟨rfl, hall⟩
    exact ofMembers_named hall

/-- Members that are attributes with values that the reader takes are read. -/
theorem exists_ofMembers (h : ∀ name v, (name, v) ∈ members →
    ∃ a : Attribute, a.name = name ∧ a.check v = .ok ()) :
    ∃ entries, ofMembers members = .ok entries := by
  induction members with
  | nil => exact ⟨[], rfl⟩
  | cons head rest ih =>
    obtain ⟨name, v⟩ := head
    obtain ⟨a, rfl, hcheck⟩ := h name v List.mem_cons_self
    obtain ⟨others, hrest⟩ := ih fun key w hm => h key w (List.mem_cons_of_mem _ hm)
    refine ⟨(a, v) :: others, ?_⟩
    rw [ofMembers, Attribute.ofName?_name]
    simp only [hcheck, hrest]
    rfl

section Members

variable (hkeys : (members.map Prod.fst).Nodup)
  (hnamed : members = entries.map fun e => (e.1.name, e.2))

include hnamed

theorem mem_named_iff : (a.name, v) ∈ members ↔ (a, v) ∈ entries := by
  rw [hnamed, List.mem_map]
  constructor
  · rintro ⟨⟨b, w⟩, hm, he⟩
    obtain ⟨hname, rfl⟩ := Prod.mk.inj he
    rwa [← Attribute.name_injective hname]
  · intro hm
    exact ⟨(a, v), hm, rfl⟩

theorem lookup_named : entries.lookup a = members.lookup a.name := by
  subst hnamed
  induction entries with
  | nil => rfl
  | cons head rest ih =>
    obtain ⟨b, w⟩ := head
    rw [List.map_cons, List.lookup_cons, List.lookup_cons, ih]
    by_cases hb : a = b
    · rw [hb, beq_self_eq_true, beq_self_eq_true]
    · have hname : a.name ≠ b.name := fun h => hb (Attribute.name_injective h)
      rw [beq_eq_false_iff_ne.mpr hb, beq_eq_false_iff_ne.mpr hname]

include hkeys

/-- What an attribute says is what is written for it, unless that is null. -/
theorem get?_eq_some_iff :
    entries.get? a = some v ↔ (a.name, v) ∈ members ∧ v.isNull = false := by
  have hlookup : members.lookup a.name = some v ↔ (a.name, v) ∈ members :=
    ⟨Members.mem_of_lookup, Members.lookup_of_mem hkeys⟩
  rw [get?, lookup_named hnamed, Option.filter_eq_some_iff, hlookup, Bool.not_eq_true']

theorem has_iff : entries.has a = true ↔ Given members a := by
  rw [has, Option.isSome_iff_exists]
  exact exists_congr fun v => get?_eq_some_iff hkeys hnamed

theorem number?_eq_some_iff {n : Number} :
    entries.number? a = some n ↔ (a.name, .number n) ∈ members := by
  have hget := get?_eq_some_iff hkeys hnamed (a := a) (v := .number n)
  have hnull : (Json.number n).isNull = false := rfl
  rw [hnull, eq_self, and_true] at hget
  rw [← hget, number?]
  cases entries.get? a with
  | none => simp
  | some v => cases v <;> simp

theorem array?_eq_some_iff {values : List Json} :
    entries.array? a = some values ↔ (a.name, .array values) ∈ members := by
  have hget := get?_eq_some_iff hkeys hnamed (a := a) (v := .array values)
  have hnull : (Json.array values).isNull = false := rfl
  rw [hnull, eq_self, and_true] at hget
  rw [← hget, array?]
  cases entries.get? a with
  | none => simp
  | some v => cases v <;> simp

/-- The bounds are in order if no two that are written are out of order. -/
theorem inverted_bounds_iff : entries.bounds.inverted = false ↔
    ∀ least greatest, (Attribute.minimum.name, .number least) ∈ members →
      (Attribute.maximum.name, .number greatest) ∈ members → least.order ≤ greatest.order := by
  simp only [← number?_eq_some_iff hkeys hnamed, bounds, Bounds.inverted]
  cases entries.number? .minimum with
  | none => simp
  | some least =>
    cases entries.number? .maximum with
    | none => simp
    | some greatest => simp

theorem leafOutline_eq_ok_iff {type : Leaf} :
    (∃ o, entries.leafOutline type = .ok o) ↔
      (Attribute.enum.name, .array []) ∉ members ∧ entries.bounds.inverted = false := by
  rw [← array?_eq_some_iff hkeys hnamed, leafOutline]
  split
  · next hempty => simp [hempty]
  · next hnone =>
    cases entries.bounds.inverted with
    | true => simp
    | false => simpa using hnone

/-- Attributes that make an outline stand where they make sense. -/
theorem placed_of_outline {kind : Kind} {o : Outline} (h : entries.outline kind = .ok o) :
    (kind ≠ .array → ¬ Given members .items ∧ ¬ Given members .uniqueItems) ∧
      (kind ≠ .object → ¬ Given members .properties) ∧
      (¬ kind.isNumeric = true → ¬ Given members .minimum ∧ ¬ Given members .maximum) := by
  have hgiven : ∀ {a}, entries.has a = true ↔ Given members a := has_iff hkeys hnamed
  unfold outline at h
  split at h
  · cases h
  · next hplace =>
    split at h
    · cases h
    · next hfields =>
      split at h
      · cases h
      · next hnumeric =>
        simp only [hgiven, not_and, not_or] at hplace hfields hnumeric
        exact ⟨hplace, hfields, hnumeric⟩

/-- What an outline asks of the attributes that only some kinds have. -/
theorem contents_of_outline {kind : Kind} {o : Outline} (h : entries.outline kind = .ok o) :
    (kind = .array → Given members .items) ∧ (kind = .object → Given members .properties) ∧
      (Given members .enum → kind ≠ .object ∧ kind ≠ .array) ∧
      (kind ≠ .object ∧ kind ≠ .array →
        (Attribute.enum.name, .array []) ∉ members ∧ entries.bounds.inverted = false) := by
  have hgiven : ∀ {a}, entries.has a = true ↔ Given members a := has_iff hkeys hnamed
  have hwritten : ∀ {a v}, entries.get? a = some v → Given members a :=
    fun hget => ⟨_, (get?_eq_some_iff hkeys hnamed).mp hget⟩
  unfold outline at h
  split at h
  · cases h
  split at h
  · cases h
  split at h
  · cases h
  cases kind with
  | string | boolean | integer | number =>
    have hleaf := (leafOutline_eq_ok_iff hkeys hnamed).mp ⟨o, h⟩
    exact ⟨nofun, nofun, fun _ => ⟨nofun, nofun⟩, fun _ => hleaf⟩
  | object =>
    dsimp only at h
    split at h
    · cases h
    · next henum =>
      refine ⟨nofun, fun _ => ?_, fun he => absurd (hgiven.mpr he) henum, fun hk => absurd rfl hk.1⟩
      split at h
      · next hget => exact hwritten hget
      · next hget => exact hwritten hget
      · cases h
  | array =>
    dsimp only at h
    split at h
    · cases h
    · next henum =>
      refine ⟨fun _ => ?_, nofun, fun he => absurd (hgiven.mpr he) henum, fun hk => absurd rfl hk.2⟩
      split at h
      · next hget => exact hwritten hget
      · cases h

/-- Attributes that make an outline of a node are sound for its kind. -/
theorem isNode_of_outline {kind : Kind} {o : Outline}
    (htype : (Attribute.type.name, .string kind.name) ∈ members)
    (htakes : ∀ name v, (name, v) ∈ members → ∃ a : Attribute, a.name = name ∧ a.Takes v)
    (h : entries.outline kind = .ok o) : IsNode members kind := by
  obtain ⟨hplace, hfields, hnumeric⟩ := placed_of_outline hkeys hnamed h
  obtain ⟨hitems, hproperties, henum, hleaf⟩ := contents_of_outline hkeys hnamed h
  have hwritten : ∀ {a v}, (Attribute.name a, v) ∈ members → v.isNull = false → Given members a :=
    fun hm hv => ⟨_, hm, hv⟩
  refine ⟨htype, htakes, ⟨fun hg => ?_, hitems⟩, fun hg => ?_, ⟨fun hg => ?_, hproperties⟩, henum,
    fun hm => ?_, fun hg => ?_, fun hg => ?_, fun least greatest hl hg => ?_⟩
  · exact Decidable.byContradiction fun hk => (hplace hk).1 hg
  · exact Decidable.byContradiction fun hk => (hplace hk).2 hg
  · exact Decidable.byContradiction fun hk => hfields hk hg
  · exact (hleaf (henum (hwritten hm rfl))).1 hm
  · exact Kind.isNumeric_iff.mp (Decidable.byContradiction fun hk => (hnumeric hk).1 hg)
  · exact Kind.isNumeric_iff.mp (Decidable.byContradiction fun hk => (hnumeric hk).2 hg)
  · have hnum : kind.isNumeric = true :=
      Decidable.byContradiction fun hk => (hnumeric hk).1 (hwritten hl rfl)
    have hkind : kind ≠ .object ∧ kind ≠ .array := by
      rcases Kind.isNumeric_iff.mp hnum with rfl | rfl <;> exact ⟨nofun, nofun⟩
    exact (inverted_bounds_iff hkeys hnamed).mp (hleaf hkind).2 least greatest hl hg

/-- Attributes that go with the kind of a node make an outline. -/
theorem exists_outline {kind : Kind} (h : IsNode members kind) :
    ∃ o, entries.outline kind = .ok o := by
  have hgiven : ∀ {a}, entries.has a = true ↔ Given members a := has_iff hkeys hnamed
  have hplace : ¬ (kind ≠ .array ∧ (entries.has .items = true ∨ entries.has .uniqueItems = true)) := by
    rintro ⟨hne, hi | hu⟩
    · exact hne (h.items.mp (hgiven.mp hi))
    · exact hne (h.uniqueItems (hgiven.mp hu))
  have hfields : ¬ (kind ≠ .object ∧ entries.has .properties = true) := by
    rintro ⟨hne, hp⟩
    exact hne (h.properties.mp (hgiven.mp hp))
  have hnumeric : ¬ (¬ kind.isNumeric = true ∧
      (entries.has .minimum = true ∨ entries.has .maximum = true)) := by
    rintro ⟨hne, hb | hb⟩
    · exact hne (Kind.isNumeric_iff.mpr (h.minimum (hgiven.mp hb)))
    · exact hne (Kind.isNumeric_iff.mpr (h.maximum (hgiven.mp hb)))
  unfold outline
  rw [if_neg hplace, if_neg hfields, if_neg hnumeric]
  cases kind with
  | string | boolean | integer | number =>
    have hinverted := (inverted_bounds_iff hkeys hnamed).mpr h.bounds
    exact (leafOutline_eq_ok_iff hkeys hnamed).mpr ⟨h.allowed, hinverted⟩
  | object =>
    have henum : ¬ entries.has .enum = true := fun he => (h.enum (hgiven.mp he)).1 rfl
    obtain ⟨v, hm, hv⟩ := h.properties.mpr rfl
    obtain ⟨a, hname, htakes⟩ := h.takes _ v hm
    cases Attribute.name_injective hname
    obtain rfl | ⟨fields, rfl⟩ := htakes
    · cases hv
    · have hget := (get?_eq_some_iff hkeys hnamed).mpr ⟨hm, hv⟩
      dsimp only
      rw [if_neg henum, hget]
      cases fields with
      | nil => exact ⟨_, rfl⟩
      | cons head rest => exact ⟨_, rfl⟩
  | array =>
    have henum : ¬ entries.has .enum = true := fun he => (h.enum (hgiven.mp he)).2 rfl
    obtain ⟨v, hm, hv⟩ := h.items.mpr rfl
    have hget := (get?_eq_some_iff hkeys hnamed).mpr ⟨hm, hv⟩
    dsimp only
    rw [if_neg henum, hget]
    exact ⟨_, rfl⟩

end Members

/-- The outline of a node is of the node's kind. -/
theorem kind_of_outline {kind : Kind} {o : Outline} (h : entries.outline kind = .ok o) :
    o.kind = kind := by
  have hleaf : ∀ {type}, entries.leafOutline type = .ok o → o.kind = type.kind := by
    intro type hl
    unfold leafOutline at hl
    repeat' split at hl
    all_goals cases hl
    all_goals rfl
  unfold outline at h
  repeat' split at h
  all_goals first
    | exact hleaf h
    | cases h; rfl
    | cases h

/-- An object that is open to any fields declares none. -/
theorem get?_properties_of_openObject {kind : Kind} (h : entries.outline kind = .ok .openObject) :
    entries.get? .properties = some (.object []) := by
  have hleaf : ∀ {type}, entries.leafOutline type ≠ .ok .openObject := by
    intro type
    unfold leafOutline
    repeat' split
    all_goals simp
  unfold outline at h
  repeat' split at h
  all_goals first
    | exact absurd h hleaf
    | assumption
    | cases h

theorem ofJson_object_eq_ok_iff : ofJson (.object members) = .ok entries ↔
    ofMembers members = .ok entries ∧ (entries.lookup .type).isSome = true := by
  rw [ofJson, bind_eq_ok_iff]
  constructor
  · rintro ⟨found, hread, h⟩
    split at h
    · next hsome =>
      cases h
      exact ⟨hread, hsome⟩
    · cases h
  · rintro ⟨hread, hsome⟩
    exact ⟨entries, hread, if_pos hsome⟩

theorem kind?_eq_some_iff {kind : Kind} : entries.kind? = some kind ↔
    ∃ v, entries.lookup .type = some v ∧ Kind.ofJson v = .ok kind := by
  rw [kind?]
  cases entries.lookup .type with
  | none => simp
  | some v => cases hk : Kind.ofJson v <;> simp [hk]

end Entries

namespace Declaration

variable {members : List (String × Json)} {d : Declaration}

theorem ofJson_eq_ok_iff {node : Json} : ofJson node = .ok d ↔ ∃ entries kind,
    Entries.ofJson node = .ok entries ∧ Entries.kind? entries = some kind ∧
      Entries.outline entries kind = .ok d.outline ∧ Entries.header entries = d.header := by
  rw [ofJson]
  cases Entries.ofJson node with
  | error c => simp
  | ok entries =>
    cases hk : Entries.kind? entries with
    | none => simp [hk]
    | some kind =>
      cases ho : Entries.outline entries kind with
      | error flaw => simp [hk, ho]
      | ok o => cases d; simp [hk, ho, and_comm]

/-- The outline of a node comes from entries that are its members. -/
theorem exists_named_entries (h : ofJson (.object members) = .ok d) : ∃ entries kind,
    members = entries.map (fun e : Attribute × Json => (e.1.name, e.2)) ∧
      Entries.outline entries kind = .ok d.outline := by
  obtain ⟨entries, kind, hentries, -, houtline, -⟩ := ofJson_eq_ok_iff.mp h
  obtain ⟨hread, -⟩ := Entries.ofJson_object_eq_ok_iff.mp hentries
  exact ⟨entries, kind, (Entries.ofMembers_eq_ok_iff.mp hread).1, houtline⟩

section Below

variable (hkeys : (members.map Prod.fst).Nodup)

include hkeys

/-- The node of an array's elements is the one written for them. -/
theorem mem_items_of_ofJson {unique : Bool} {items : Json}
    (h : ofJson (.object members) = .ok d) (ho : d.outline = .array unique items) :
    (Attribute.items.name, items) ∈ members ∧ items.isNull = false := by
  obtain ⟨entries, kind, hnamed, houtline⟩ := exists_named_entries h
  rw [ho] at houtline
  have hget := Entries.get?_items_of_outline houtline
  exact (Entries.get?_eq_some_iff hkeys hnamed).mp hget

/-- The nodes of an object's fields are those written for them. -/
theorem mem_properties_of_ofJson {fields : List (String × Json)}
    (h : ofJson (.object members) = .ok d) (ho : d.outline = .object fields) :
    (Attribute.properties.name, .object fields) ∈ members := by
  obtain ⟨entries, kind, hnamed, houtline⟩ := exists_named_entries h
  rw [ho] at houtline
  have hget := Entries.get?_properties_of_outline houtline
  exact ((Entries.get?_eq_some_iff hkeys hnamed).mp hget).1

/-- For an open object no fields are written. -/
theorem mem_properties_of_openObject (h : ofJson (.object members) = .ok d)
    (ho : d.outline = .openObject) : (Attribute.properties.name, .object []) ∈ members := by
  obtain ⟨entries, kind, hnamed, houtline⟩ := exists_named_entries h
  rw [ho] at houtline
  have hget := Entries.get?_properties_of_openObject houtline
  exact ((Entries.get?_eq_some_iff hkeys hnamed).mp hget).1

end Below

section Plain

variable (hkeys : (members.map Prod.fst).Nodup)
  (hplain : ∀ v, (Attribute.type.name, v) ∈ members → ∃ s, v = .string s)

include hkeys hplain

/-- What reading a node without those below tells about its members. -/
theorem isNode_of_ofJson (h : ofJson (.object members) = .ok d) :
    IsNode members d.outline.kind := by
  obtain ⟨entries, kind, hentries, hkind, houtline, -⟩ := ofJson_eq_ok_iff.mp h
  obtain ⟨hread, -⟩ := Entries.ofJson_object_eq_ok_iff.mp hentries
  obtain ⟨hnamed, hcheck⟩ := Entries.ofMembers_eq_ok_iff.mp hread
  have htakes : ∀ name v, (name, v) ∈ members → ∃ a : Attribute, a.name = name ∧ a.Takes v := by
    intro name v hm
    rw [hnamed] at hm
    obtain ⟨⟨a, w⟩, hin, he⟩ := List.mem_map.mp hm
    cases he
    refine ⟨a, rfl, (Attribute.check_eq_ok_iff ?_).mp (hcheck a w hin)⟩
    rintro rfl
    exact hplain w ((Entries.mem_named_iff hnamed).mpr hin)
  have htype : (Attribute.type.name, .string kind.name) ∈ members := by
    obtain ⟨v, hlookup, hv⟩ := Entries.kind?_eq_some_iff.mp hkind
    rw [Entries.lookup_named hnamed] at hlookup
    have hm := Members.mem_of_lookup hlookup
    obtain ⟨s, rfl⟩ := hplain v hm
    rwa [← Kind.ofJson_string_iff.mp hv]
  rw [Entries.kind_of_outline houtline]
  exact Entries.isNode_of_outline hkeys hnamed htype htakes houtline

/-- Sound attributes are read. -/
theorem exists_ofJson {kind : Kind} (h : IsNode members kind) :
    ∃ d, ofJson (.object members) = .ok d := by
  have hreads : ∀ name v, (name, v) ∈ members →
      ∃ a : Attribute, a.name = name ∧ a.check v = .ok () := by
    intro name v hm
    obtain ⟨a, rfl, htakes⟩ := h.takes name v hm
    refine ⟨a, rfl, (Attribute.check_eq_ok_iff ?_).mpr htakes⟩
    rintro rfl
    exact hplain v hm
  obtain ⟨entries, hread⟩ := Entries.exists_ofMembers hreads
  obtain ⟨hnamed, -⟩ := Entries.ofMembers_eq_ok_iff.mp hread
  have hlookup : entries.lookup .type = some (.string kind.name) := by
    rw [Entries.lookup_named hnamed]
    exact Members.lookup_of_mem hkeys h.type
  have hentries : Entries.ofJson (.object members) = .ok entries :=
    Entries.ofJson_object_eq_ok_iff.mpr ⟨hread, by rw [hlookup]; rfl⟩
  have hkind : entries.kind? = some kind :=
    Entries.kind?_eq_some_iff.mpr ⟨_, hlookup, Kind.ofJson_name kind⟩
  obtain ⟨o, houtline⟩ := Entries.exists_outline hkeys hnamed h
  exact ⟨⟨entries.header, o⟩, ofJson_eq_ok_iff.mpr ⟨entries, kind, hentries, hkind, houtline, rfl⟩⟩

end Plain

end Declaration

end PipelineConfig
