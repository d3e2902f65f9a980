import PipelineConfig.Proofs.Schemas

/-!
# Schemas are read back as they were

A node is written as an object of the attributes that say something. Written and read
again, it has the same entries, the entries make the same declaration, and so the whole
tree is read back, under whatever path. What reading guarantees is needed for that: a
default that is null, bounds out of order or an object without fields would not come back.
-/

namespace PipelineConfig

namespace Attribute

/-- All attributes, in the order in which they are written. -/
def written : List Attribute :=
  [type, title, description, direction, default, required, enum, minimum, maximum, uniqueItems,
    items, properties]

theorem mem_written (a : Attribute) : a ∈ written := by cases a <;> decide

theorem ofName?_name (a : Attribute) : ofName? a.name = some a := by cases a <;> decide

end Attribute

@[simp] theorem optionalMember_none (a : Attribute) : optionalMember a none = [] := rfl

@[simp] theorem optionalMember_some (a : Attribute) (v : Json) :
    optionalMember a (some v) = [(a.name, v)] := rfl

theorem Kind.ofJson_name (kind : Kind) : Kind.ofJson (.string kind.name) = .ok kind := by
  cases kind <;> rfl

/-- The kind of a node with this outline. -/
def Outline.kind : Outline → Kind
  | leaf type _ => type.kind
  | object _ | openObject => .object
  | array .. => .array

namespace Declaration

/-- What an attribute is written as, if it says something. -/
def value? (d : Declaration) : Attribute → Option Json
  | .type => some (.string d.outline.kind.name)
  | .title => d.header.title.map .string
  | .description => d.header.description.map .string
  | .direction => d.header.direction.map .string
  | .default => d.header.default
  | .required => if d.header.required then some (.bool true) else none
  | .enum =>
    match d.outline with
    | .leaf _ allowed => if allowed.isEmpty then none else some (.array allowed)
    | _ => none
  | .minimum =>
    match d.outline with
    | .leaf type _ => type.bounds.minimum.map .number
    | _ => none
  | .maximum =>
    match d.outline with
    | .leaf type _ => type.bounds.maximum.map .number
    | _ => none
  | .uniqueItems =>
    match d.outline with
    | .array true _ => some (.bool true)
    | _ => none
  | .items =>
    match d.outline with
    | .array _ items => some items
    | _ => none
  | .properties =>
    match d.outline with
    | .object properties => some (.object properties)
    | .openObject => some (.object [])
    | _ => none

/-- The entries that a declaration is written as. -/
def entries (d : Declaration) : Entries :=
  Attribute.written.filterMap fun a => (d.value? a).map fun v => (a, v)

/-- The node that a declaration is written as. -/
def toJson (d : Declaration) : Json := .object (d.entries.map fun e => (e.1.name, e.2))

/-- The kind is written first, then what is said about the field, then the outline. -/
theorem toJson_eq (d : Declaration) :
    d.toJson = .object ((Attribute.type.name, .string d.outline.kind.name) :: d.header.members ++
      [.enum, .minimum, .maximum, .uniqueItems, .items, .properties].flatMap fun a =>
        optionalMember a (d.value? a)) := by
  have hnamed : ∀ attributes : List Attribute,
      (attributes.filterMap fun a => (d.value? a).map fun v => (a, v)).map
        (fun e => (e.1.name, e.2)) = attributes.flatMap fun a => optionalMember a (d.value? a) := by
    intro attributes
    induction attributes with
    | nil => rfl
    | cons a rest ih =>
      rw [List.filterMap_cons, List.flatMap_cons, ← ih]
      cases d.value? a <;> rfl
  rw [toJson, entries, hnamed]
  simp [Attribute.written, Header.members, value?]

/-- What reading guarantees of a declaration. -/
structure Sound (d : Declaration) : Prop where
  /-- A default is not null. -/
  default : ∀ v, d.header.default = some v → v.isNull = false
  /-- Bounds are in order. -/
  bounds : ∀ type allowed, d.outline = .leaf type allowed → type.bounds.inverted = false
  /-- An object that declares fields has some. -/
  properties : d.outline ≠ .object []
  /-- The node of the elements is not null. -/
  items : ∀ unique items, d.outline = .array unique items → items.isNull = false

end Declaration

namespace Entries

variable {entries : Entries} {a : Attribute}

/-- Entries of the right form are read back from what they are written as. -/
theorem ofMembers_named (h : ∀ a v, (a, v) ∈ entries → a.check v = .ok ()) :
    ofMembers (entries.map fun e => (e.1.name, e.2)) = .ok entries := by
  induction entries with
  | nil => rfl
  | cons head rest ih =>
    obtain ⟨a, v⟩ := head
    have hrest := ih fun b w hm => h b w (List.mem_cons_of_mem _ hm)
    rw [List.map_cons, ofMembers, Attribute.ofName?_name]
    simp only [h a v List.mem_cons_self, hrest]
    rfl

theorem string?_eq {s : Option String} (h : entries.get? a = s.map .string) :
    entries.string? a = s := by
  rw [string?, h]
  cases s <;> rfl

theorem number?_eq {n : Option Number} (h : entries.get? a = n.map .number) :
    entries.number? a = n := by
  rw [number?, h]
  cases n <;> rfl

/-- A truth value that is written only if it holds is read back. -/
theorem bool?_eq {b : Bool} (h : entries.get? a = if b then some (.bool true) else none) :
    (entries.bool? a).getD false = b := by
  rw [bool?, h]
  cases b <;> rfl

/-- A list that is written only if it has elements is read back. -/
theorem array?_eq {values : List Json}
    (h : entries.get? a = if values.isEmpty then none else some (.array values)) :
    entries.array? a = if values.isEmpty then none else some values := by
  rw [array?, h]
  cases values <;> rfl

end Entries

namespace Declaration

variable {d : Declaration}

theorem lookup_entries (a : Attribute) : d.entries.lookup a = d.value? a :=
  Members.lookup_filterMap fun _ _ => a.mem_written

/-- Everything is written in the form that its attribute asks for, and nothing as null. -/
theorem value?_sound (hs : d.Sound) {a : Attribute} {v : Json} (h : d.value? a = some v) :
    a.check v = .ok () ∧ v.isNull = false := by
  cases a with
  | type =>
    cases h
    refine ⟨?_, rfl⟩
    rw [Attribute.check, Kind.ofJson_name]
    rfl
  | title | description | direction =>
    obtain ⟨s, -, rfl⟩ := Option.map_eq_some_iff.mp h
    exact ⟨rfl, rfl⟩
  | default =>
    have hnull := hs.default v h
    cases v with
    | null => cases hnull
    | bool | number | string | array | object => exact ⟨rfl, rfl⟩
  | required =>
    rw [value?] at h
    split at h <;> cases h
    exact ⟨rfl, rfl⟩
  | enum =>
    rw [value?] at h
    repeat' split at h
    all_goals cases h
    exact ⟨rfl, rfl⟩
  | minimum | maximum =>
    rw [value?] at h
    split at h
    · obtain ⟨n, -, rfl⟩ := Option.map_eq_some_iff.mp h
      exact ⟨rfl, rfl⟩
    · cases h
  | uniqueItems =>
    rw [value?] at h
    split at h <;> cases h
    exact ⟨rfl, rfl⟩
  | items =>
    rw [value?] at h
    split at h
    · next unique items ho =>
      cases h
      have hnull := hs.items unique v ho
      cases v with
      | null => cases hnull
      | bool | number | string | array | object => exact ⟨rfl, rfl⟩
    · cases h
  | properties =>
    rw [value?] at h
    split at h <;> cases h
    · exact ⟨rfl, rfl⟩
    · exact ⟨rfl, rfl⟩

theorem get?_entries (hs : d.Sound) (a : Attribute) : d.entries.get? a = d.value? a := by
  rw [Entries.get?, lookup_entries]
  cases hv : d.value? a with
  | none => rfl
  | some v => exact Option.filter_some_pos (by rw [(value?_sound hs hv).2]; rfl)

/-- A declaration is written as a node with its entries, if they all have the right form. -/
theorem ofJson_entries_of_check (h : ∀ a v, d.value? a = some v → a.check v = .ok ()) :
    Entries.ofJson d.toJson = .ok d.entries := by
  have hcheck : ∀ a v, (a, v) ∈ d.entries → a.check v = .ok () := by
    intro a v hm
    obtain ⟨b, -, hb⟩ := List.mem_filterMap.mp hm
    obtain ⟨w, hw, he⟩ := Option.map_eq_some_iff.mp hb
    cases he
    exact h a v hw
  have htype : (d.entries.lookup .type).isSome = true := by
    rw [lookup_entries]
    rfl
  rw [toJson, Entries.ofJson, Entries.ofMembers_named hcheck]
  simp only [bind, Except.bind, htype, if_true]

theorem ofJson_entries (hs : d.Sound) : Entries.ofJson d.toJson = .ok d.entries :=
  ofJson_entries_of_check fun _ _ hv => (value?_sound hs hv).1

theorem kind?_entries : d.entries.kind? = some d.outline.kind := by
  have htype : d.entries.lookup .type = some (.string d.outline.kind.name) := lookup_entries _
  rw [Entries.kind?, htype, Option.map_some, Kind.ofJson_name]

theorem header_entries (hs : d.Sound) : d.entries.header = d.header := by
  have htitle : d.entries.string? .title = d.header.title :=
    Entries.string?_eq (get?_entries hs _)
  have hdescription : d.entries.string? .description = d.header.description :=
    Entries.string?_eq (get?_entries hs _)
  have hdirection : d.entries.string? .direction = d.header.direction :=
    Entries.string?_eq (get?_entries hs _)
  have hdefault : d.entries.get? .default = d.header.default := get?_entries hs _
  have hrequired : (d.entries.bool? .required).getD false = d.header.required :=
    Entries.bool?_eq (get?_entries hs _)
  rw [Entries.header, htitle, hdescription, hdirection, hdefault, hrequired]

section Outline

variable {type : Leaf} {allowed : List Json}

theorem has_entries (hs : d.Sound) (a : Attribute) : d.entries.has a = (d.value? a).isSome := by
  rw [Entries.has, get?_entries hs]

theorem bounds_entries (hs : d.Sound) (ho : d.outline = .leaf type allowed) :
    d.entries.bounds = type.bounds := by
  have hmin : d.entries.number? .minimum = type.bounds.minimum := by
    apply Entries.number?_eq
    rw [get?_entries hs, value?, ho]
  have hmax : d.entries.number? .maximum = type.bounds.maximum := by
    apply Entries.number?_eq
    rw [get?_entries hs, value?, ho]
  rw [Entries.bounds, hmin, hmax]

/-- The list of allowed values and the bounds are read back. -/
theorem leafOutline_entries (hs : d.Sound) (ho : d.outline = .leaf type allowed) :
    d.entries.leafOutline type = .ok (.leaf type allowed) := by
  have henum : d.entries.array? .enum = if allowed.isEmpty then none else some allowed := by
    apply Entries.array?_eq
    rw [get?_entries hs, value?, ho]
  have hbounds : ¬ d.entries.bounds.inverted = true := by
    rw [bounds_entries hs ho, hs.bounds type allowed ho]
    exact Bool.false_ne_true
  rw [Entries.leafOutline, henum]
  cases allowed with
  | nil => exact if_neg hbounds
  | cons v rest => exact if_neg hbounds

theorem outline_entries_leaf (hs : d.Sound) (ho : d.outline = .leaf type allowed) :
    d.entries.outline type.kind = .ok (.leaf type allowed) := by
  have hleaf := leafOutline_entries hs ho
  have hbounds := bounds_entries hs ho
  have hmin : d.entries.has .minimum = type.bounds.minimum.isSome := by
    rw [has_entries hs, value?, ho]
    exact Option.isSome_map
  have hmax : d.entries.has .maximum = type.bounds.maximum.isSome := by
    rw [has_entries hs, value?, ho]
    exact Option.isSome_map
  have hitems : d.entries.has .items = false := by rw [has_entries hs, value?, ho]; rfl
  have hunique : d.entries.has .uniqueItems = false := by rw [has_entries hs, value?, ho]; rfl
  have hproperties : d.entries.has .properties = false := by rw [has_entries hs, value?, ho]; rfl
  cases type with
  | string | boolean =>
    simp [Entries.outline, Leaf.kind, Leaf.bounds, Kind.isNumeric, hitems, hunique, hproperties,
      hmin, hmax, hleaf]
  | integer bounds | number bounds =>
    rw [show bounds = d.entries.bounds from hbounds.symm] at hleaf ⊢
    simp [Entries.outline, Leaf.kind, Kind.isNumeric, hitems, hunique, hproperties, hleaf]

theorem outline_entries_object (hs : d.Sound) {properties : List (String × Json)}
    (ho : d.outline = .object properties) :
    d.entries.outline .object = .ok (.object properties) := by
  have hget : d.entries.get? .properties = some (.object properties) := by
    rw [get?_entries hs, value?, ho]
  cases properties with
  | nil => exact absurd ho hs.properties
  | cons head rest =>
    simp [Entries.outline, Kind.isNumeric, has_entries hs, value?, ho, hget]

theorem outline_entries_openObject (hs : d.Sound) (ho : d.outline = .openObject) :
    d.entries.outline .object = .ok .openObject := by
  have hget : d.entries.get? .properties = some (.object []) := by
    rw [get?_entries hs, value?, ho]
  simp [Entries.outline, Kind.isNumeric, has_entries hs, value?, ho, hget]

theorem outline_entries_array (hs : d.Sound) {unique : Bool} {items : Json}
    (ho : d.outline = .array unique items) :
    d.entries.outline .array = .ok (.array unique items) := by
  have hget : d.entries.get? .items = some items := by rw [get?_entries hs, value?, ho]
  have hunique : (d.entries.bool? .uniqueItems).getD false = unique := by
    apply Entries.bool?_eq
    rw [get?_entries hs, value?, ho]
    cases unique <;> rfl
  simp [Entries.outline, Kind.isNumeric, has_entries hs, value?, ho, hget, hunique]

end Outline

/-- A declaration is read back from the node that it is written as. -/
theorem ofJson_toJson (hs : d.Sound) : ofJson d.toJson = .ok d := by
  have houtline : d.entries.outline d.outline.kind = .ok d.outline := by
    cases ho : d.outline with
    | leaf type allowed => exact outline_entries_leaf hs ho
    | object properties => exact outline_entries_object hs ho
    | openObject => exact outline_entries_openObject hs ho
    | array unique items => exact outline_entries_array hs ho
  rw [ofJson, ofJson_entries hs]
  simp only [kind?_entries, houtline, header_entries hs]

end Declaration

namespace Schema

/-- The outline of a node, with the nodes below it written out. -/
def outline : Schema → Outline
  | leaf _ type allowed => .leaf type allowed
  | object _ properties => .object (properties.map fun p => (p.1, p.2.toJson))
  | openObject _ => .openObject
  | array _ unique items => .array unique items.toJson

/-- The declaration of a node, with the nodes below it written out. -/
def declaration (node : Schema) : Declaration := ⟨node.header, node.outline⟩

variable {node : Schema}

theorem toMembers_eq (properties : List (String × Schema)) :
    toMembers properties = properties.map fun p => (p.1, p.2.toJson) := by
  induction properties with
  | nil => rfl
  | cons head rest ih =>
    obtain ⟨name, node⟩ := head
    rw [toMembers, ih, List.map_cons]

theorem isNull_toJson (node : Schema) : node.toJson.isNull = false := by cases node <;> rfl

/-- A node is written as its declaration is. -/
theorem toJson_eq (hn : node.WellFormed) : node.toJson = node.declaration.toJson := by
  rw [Declaration.toJson_eq]
  cases hn with
  | leaf =>
    simp [toJson, Leaf.members, declaration, header, outline, Declaration.value?, Outline.kind]
  | @object _ properties _ hd _ =>
    have hkeys : ((toMembers properties).map Prod.fst).Nodup := by
      rwa [toMembers_eq, List.map_map]
    rw [toJson, Members.collect_of_nodup hkeys, toMembers_eq]
    simp [declaration, header, outline, Declaration.value?, Outline.kind]
  | openObject =>
    simp [toJson, declaration, header, outline, Declaration.value?, Outline.kind]
  | @array _ unique =>
    cases unique <;>
      simp [toJson, declaration, header, outline, Declaration.value?, Outline.kind]

/-- No object node in the tree declares no fields. Such an object is read as one that is
open to any. -/
def DeclaresFields (node : Schema) : Prop := ∀ header, ¬ node.Contains (.object header [])

theorem sound_declaration (hn : node.WellFormed) (hf : node.DeclaresFields) :
    node.declaration.Sound := by
  refine ⟨fun v hv => (hn.header v hv).2, fun type allowed ho => ?_, fun ho => ?_,
    fun unique items ho => ?_⟩
  · cases hn with
    | leaf _ hb =>
      cases ho
      exact hb
    | object | openObject | array => cases ho
  · cases node with
    | object header properties =>
      obtain rfl : properties = [] := List.map_eq_nil_iff.mp (Outline.object.inj ho)
      exact hf header (.self _)
    | leaf | openObject | array => cases ho
  · cases node with
    | array header unique child =>
      cases ho
      exact isNull_toJson child
    | leaf | object | openObject => cases ho

/-- Nodes that are each read back are read back as members. -/
theorem ofMembers_toMembers {path : String} {properties : List (String × Schema)}
    (h : ∀ name node, (name, node) ∈ properties → ∀ path, ofJson path node.toJson = .ok node) :
    ofMembers path (properties.map fun p => (p.1, p.2.toJson)) = .ok properties := by
  induction properties with
  | nil => exact ofMembers_nil
  | cons head rest ih =>
    obtain ⟨name, node⟩ := head
    exact ofMembers_cons (h name node List.mem_cons_self _)
      (ih fun key child hm => h key child (List.mem_cons_of_mem _ hm))

/-- A schema in which nothing is lost when it is written is read back as it was. -/
theorem ofJson_toJson (hn : node.WellFormed) (hf : node.DeclaresFields) (path : String) :
    ofJson path node.toJson = .ok node := by
  induction node generalizing path with
  | leaf header type allowed =>
    rw [toJson_eq hn]
    exact ofJson_of_leaf (Declaration.ofJson_toJson (sound_declaration hn hf))
  | openObject header =>
    rw [toJson_eq hn]
    exact ofJson_of_openObject (Declaration.ofJson_toJson (sound_declaration hn hf))
  | array header unique items ih =>
    rw [toJson_eq hn]
    refine ofJson_of_array (Declaration.ofJson_toJson (sound_declaration hn hf)) ?_
    cases hn with
    | array _ hi => exact ih hi (fun header hc => hf header (.items hc)) _
  | object header properties ih =>
    rw [toJson_eq hn]
    refine ofJson_of_object (Declaration.ofJson_toJson (sound_declaration hn hf)) ?_
    cases hn with
    | object _ _ hp =>
      refine ofMembers_toMembers fun name child hm => ?_
      exact ih name child hm (hp name child hm) fun header hc => hf header (.field hm hc)

end Schema

/-- An object that is written without fields is open to any. -/
theorem Entries.outline_ne_object_nil {entries : Entries} {kind : Kind} :
    entries.outline kind ≠ .ok (.object []) := by
  intro h
  unfold outline at h
  repeat' split at h
  all_goals first
    | exact absurd h leafOutline_ne_object
    | cases h
  next hnil _ => exact hnil rfl

namespace Schema

/-- Every object of a schema that was read declares fields or is open to any. -/
theorem declaresFields_of_ofJson {path : String} {definition : Json} {node : Schema}
    (h : ofJson path definition = .ok node) : node.DeclaresFields := by
  intro header hc
  obtain ⟨path, part, hread⟩ := exists_ofJson_of_contains hc h
  obtain ⟨properties, ho, hnodes⟩ := ofJson_eq_object hread
  obtain ⟨entries, kind, -, houtline⟩ := Declaration.exists_entries ho
  cases properties with
  | nil => exact Entries.outline_ne_object_nil houtline
  | cons head rest =>
    obtain ⟨child, others, hcons, -⟩ := ofMembers_eq_cons hnodes
    cases hcons

end Schema

end PipelineConfig
