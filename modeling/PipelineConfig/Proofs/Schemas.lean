import PipelineConfig.Proofs.Members
import PipelineConfig.Proofs.Values
import PipelineConfig.Schema.Dialect
import PipelineConfig.Validation.Path

/-!
# Schemas as they are read

Reading guarantees more of a schema than its shape shows: the fields of an object
have distinct names, bounds are in order, and a default is a well keyed value
other than null. The main statement is that a schema read from a well keyed
value is well formed, at every node of its tree.
-/

namespace PipelineConfig

namespace Schema

/-- Induction on a schema by the nodes directly below it. -/
@[elab_as_elim, induction_eliminator]
theorem inductionOn {motive : Schema → Prop}
    (leaf : ∀ header type allowed, motive (.leaf header type allowed))
    (object : ∀ header properties, (∀ name node, (name, node) ∈ properties → motive node) →
      motive (.object header properties))
    (openObject : ∀ header, motive (.openObject header))
    (array : ∀ header unique items, motive items → motive (.array header unique items)) :
    ∀ node, motive node
  | .leaf header type allowed => leaf header type allowed
  | .object header properties => object header properties fun name node hm =>
      have : sizeOf node < sizeOf properties := by
        have := List.sizeOf_lt_of_mem hm
        rw [Prod.mk.sizeOf_spec] at this
        omega
      inductionOn leaf object openObject array node
  | .openObject header => openObject header
  | .array header unique items =>
      array header unique items (inductionOn leaf object openObject array items)

theorem admits_object_iff {v : Json} :
    Kind.object.admits v = true ↔ ∃ members, v = .object members := by
  cases v <;> simp [Kind.admits]

theorem admits_array_iff {v : Json} :
    Kind.array.admits v = true ↔ ∃ elements, v = .array elements := by
  cases v <;> simp [Kind.admits]

/-- Induction on a schema along a value. What is below a value of another kind than
its node is not described, so that there the induction ends. -/
@[elab_as_elim]
theorem inductionAlong {motive : Schema → Json → Prop}
    (other : ∀ node v, node.kind.admits v = false → motive node v)
    (leaf : ∀ header type allowed v, type.kind.admits v = true →
      motive (.leaf header type allowed) v)
    (openObject : ∀ header members, motive (.openObject header) (.object members))
    (object : ∀ header properties members,
      (∀ name node, (name, node) ∈ properties → ∀ v, motive node v) →
      motive (.object header properties) (.object members))
    (array : ∀ header unique items elements, (∀ v, motive items v) →
      motive (.array header unique items) (.array elements)) :
    ∀ node v, motive node v := by
  intro node
  induction node with
  | leaf header type allowed =>
    intro v
    cases hk : type.kind.admits v with
    | true => exact leaf header type allowed v hk
    | false => exact other _ v hk
  | openObject header =>
    intro v
    cases hk : Kind.object.admits v with
    | true =>
      obtain ⟨members, rfl⟩ := admits_object_iff.mp hk
      exact openObject header members
    | false => exact other _ v hk
  | object header properties ih =>
    intro v
    cases hk : Kind.object.admits v with
    | true =>
      obtain ⟨members, rfl⟩ := admits_object_iff.mp hk
      exact object header properties members ih
    | false => exact other _ v hk
  | array header unique items ih =>
    intro v
    cases hk : Kind.array.admits v with
    | true =>
      obtain ⟨elements, rfl⟩ := admits_array_iff.mp hk
      exact array header unique items elements ih
    | false => exact other _ v hk

/-- The first node's tree contains the second. -/
inductive Contains : Schema → Schema → Prop where
  /-- A tree contains its root. -/
  | self (node : Schema) : Contains node node
  /-- A tree contains what is below a declared field. -/
  | field {header : Header} {properties : List (String × Schema)} {name : String}
      {child node : Schema} : (name, child) ∈ properties → Contains child node →
      Contains (.object header properties) node
  /-- A tree contains what is below the elements' node. -/
  | items {header : Header} {unique : Bool} {child node : Schema} : Contains child node →
      Contains (.array header unique child) node

/-- The node that describes the value at a path. -/
def at? : Schema → Path → Option Schema
  | node, [] => some node
  | object _ properties, .key name :: path => (properties.lookup name).bind (at? · path)
  | array _ _ items, .index _ :: path => items.at? path
  | _, _ :: _ => none

@[simp] theorem at?_nil (node : Schema) : node.at? [] = some node := by cases node <;> rfl

theorem contains_of_at? {node found : Schema} {path : Path} (h : node.at? path = some found) :
    node.Contains found := by
  induction path generalizing node with
  | nil =>
    cases node <;> cases h <;> exact .self _
  | cons step path ih =>
    cases node with
    | leaf | openObject => cases step <;> cases h
    | object header properties =>
      cases step with
      | index i => cases h
      | key name =>
        obtain ⟨child, hl, hc⟩ := Option.bind_eq_some_iff.mp h
        exact .field (Members.mem_of_lookup hl) (ih hc)
    | array header unique items =>
      cases step with
      | key name => cases h
      | index i => exact .items (ih h)

end Schema

/-- The path ends with the name of a declared field. -/
def Schema.Declares (node : Schema) (path : Path) : Prop :=
  ∃ parent name header properties, path = parent ++ [.key name] ∧
    node.at? parent = some (.object header properties) ∧ name ∈ properties.map Prod.fst

/-- A null is given for a declared field, which leaves the field out. -/
def Schema.Clears (node : Schema) (path : Path) (v : Json) : Prop :=
  v.isNull = true ∧ node.Declares path

namespace Schema

variable {header : Header} {properties : List (String × Schema)} {name : String} {child : Schema}
  {path : Path} {v : Json}

/-- A null right inside an object clears the field of its name. -/
theorem clears_of_mem (hm : name ∈ properties.map Prod.fst) (hv : v.isNull = true) :
    (object header properties).Clears [.key name] v :=
  ⟨hv, [], name, header, properties, rfl, rfl, hm⟩

/-- What clears a field further in clears it from here as well. -/
theorem Clears.field (hl : properties.lookup name = some child) (h : child.Clears path v) :
    (object header properties).Clears (.key name :: path) v := by
  obtain ⟨hv, parent, field, inner, declared, rfl, hat, hm⟩ := h
  refine ⟨hv, .key name :: parent, field, inner, declared, rfl, ?_, hm⟩
  rw [at?, hl, Option.bind_some, hat]

theorem Clears.element {unique : Bool} {i : Nat} (h : child.Clears path v) :
    (array header unique child).Clears (.index i :: path) v := by
  obtain ⟨hv, parent, field, inner, declared, rfl, hat, hm⟩ := h
  exact ⟨hv, .index i :: parent, field, inner, declared, rfl, hat, hm⟩

end Schema

/-- The default is a well keyed value, if there is one. -/
def Header.WellKeyed (header : Header) : Prop := ∀ v, header.default = some v → v.WellKeyed

/-- What reading guarantees of a header: a default is well keyed and not null. -/
def Header.WellFormed (header : Header) : Prop :=
  ∀ v, header.default = some v → v.WellKeyed ∧ v.isNull = false

/-- What reading guarantees of a schema, at every node of its tree. -/
inductive Schema.WellFormed : Schema → Prop where
  /-- The bounds of a leaf are in order. -/
  | leaf {header : Header} {type : Leaf} {allowed : List Json} : header.WellFormed →
      type.bounds.inverted = false → WellFormed (.leaf header type allowed)
  /-- The declared fields of an object have distinct names. -/
  | object {header : Header} {properties : List (String × Schema)} : header.WellFormed →
      (properties.map Prod.fst).Nodup → (∀ name node, (name, node) ∈ properties → WellFormed node) →
      WellFormed (.object header properties)
  /-- An open object has a header alone. -/
  | openObject {header : Header} : header.WellFormed → WellFormed (.openObject header)
  /-- The elements of an array are described by a well formed node. -/
  | array {header : Header} {unique : Bool} {items : Schema} : header.WellFormed →
      WellFormed items → WellFormed (.array header unique items)

namespace Schema.WellFormed

theorem header {node : Schema} (h : node.WellFormed) : node.header.WellFormed := by
  cases h <;> assumption

theorem of_contains {root node : Schema} (hc : root.Contains node) (h : root.WellFormed) :
    node.WellFormed := by
  induction hc with
  | self => exact h
  | field hm _ ih =>
    cases h with
    | object _ _ hp => exact ih (hp _ _ hm)
  | items _ ih =>
    cases h with
    | array _ hi => exact ih hi

end Schema.WellFormed

/-- Every default in the tree is a well keyed value. -/
def Schema.WellKeyed (node : Schema) : Prop := ∀ inner, node.Contains inner → inner.header.WellKeyed

namespace Schema

theorem WellFormed.wellKeyed {node : Schema} (h : node.WellFormed) : node.WellKeyed :=
  fun _ hc v hv => ((h.of_contains hc).header v hv).1

namespace WellKeyed

theorem header {node : Schema} (h : node.WellKeyed) : node.header.WellKeyed := h node (.self node)

theorem field {header : Header} {properties : List (String × Schema)} {name : String}
    {child : Schema} (h : (object header properties).WellKeyed)
    (hm : (name, child) ∈ properties) : child.WellKeyed :=
  fun inner hc => h inner (.field hm hc)

theorem items {header : Header} {unique : Bool} {child : Schema}
    (h : (array header unique child).WellKeyed) : child.WellKeyed :=
  fun inner hc => h inner (.items hc)

end WellKeyed

end Schema

namespace Entries

theorem value_mem_ofMembers {members : List (String × Json)} {entries : Entries}
    (h : ofMembers members = .ok entries) {a : Attribute} {v : Json} (hv : (a, v) ∈ entries) :
    ∃ name, (name, v) ∈ members := by
  induction members generalizing entries with
  | nil =>
    cases h
    cases hv
  | cons head rest ih =>
    obtain ⟨name, w⟩ := head
    rw [ofMembers] at h
    split at h
    · cases h
    · next b _ =>
      obtain ⟨_, -, h⟩ := bind_eq_ok_iff.mp h
      obtain ⟨others, ho, h⟩ := bind_eq_ok_iff.mp h
      cases h
      rcases List.mem_cons.mp hv with he | hv
      · cases he
        exact ⟨name, List.mem_cons_self⟩
      · obtain ⟨key, hm⟩ := ih ho hv
        exact ⟨key, List.mem_cons_of_mem _ hm⟩

theorem value_mem_ofElements {count : Nat} {left : List Attribute} {elements : List Json}
    {entries : Entries} (h : ofElements count left elements = .ok entries) {a : Attribute}
    {v : Json} (hv : (a, v) ∈ entries) : v ∈ elements := by
  induction elements generalizing left entries with
  | nil =>
    cases left with
    | nil =>
      cases h
      cases hv
    | cons => cases h
  | cons w rest ih =>
    cases left with
    | nil => cases h
    | cons b left =>
      rw [ofElements] at h
      obtain ⟨_, -, h⟩ := bind_eq_ok_iff.mp h
      obtain ⟨others, ho, h⟩ := bind_eq_ok_iff.mp h
      cases h
      rcases List.mem_cons.mp hv with he | hv
      · cases he
        exact List.mem_cons_self
      · exact List.mem_cons_of_mem _ (ih ho hv)

/-- The values of a well keyed node are well keyed. -/
theorem wellKeyed_of_mem {node : Json} (hd : node.WellKeyed) {entries : Entries}
    (h : ofJson node = .ok entries) {a : Attribute} {v : Json} (hv : (a, v) ∈ entries) :
    v.WellKeyed := by
  cases hd with
  | object _ hm =>
    obtain ⟨found, ho, h⟩ := bind_eq_ok_iff.mp h
    split at h
    · cases h
      obtain ⟨name, hmem⟩ := value_mem_ofMembers ho hv
      exact hm name v hmem
    · cases h
  | array hm => exact hm v (value_mem_ofElements h hv)
  | null | bool | number | string => cases h

theorem wellKeyed_of_get? {node : Json} (hd : node.WellKeyed) {entries : Entries}
    (h : ofJson node = .ok entries) {a : Attribute} {v : Json} (hv : entries.get? a = some v) :
    v.WellKeyed :=
  wellKeyed_of_mem hd h (mem_of_get? hv)

theorem header_wellFormed {node : Json} (hd : node.WellKeyed) {entries : Entries}
    (h : ofJson node = .ok entries) : entries.header.WellFormed := by
  intro v hv
  have hnull : v.isNull = false := by
    have hf : (entries.lookup .default).filter (fun v => !v.isNull) = some v := hv
    simpa using (Option.filter_eq_some_iff.mp hf).2
  exact ⟨wellKeyed_of_get? hd h hv, hnull⟩

/-- The outline of a leaf keeps the leaf, and has bounds in order. -/
theorem leafOutline_eq_leaf {entries : Entries} {type type' : Leaf} {allowed : List Json}
    (h : entries.leafOutline type = .ok (.leaf type' allowed)) :
    type' = type ∧ entries.bounds.inverted = false := by
  unfold leafOutline at h
  split at h
  · cases h
  · split at h
    · cases h
    · next hb =>
      cases h
      exact ⟨rfl, Bool.eq_false_iff.mpr hb⟩

theorem outline_leaf_bounds {entries : Entries} {kind : Kind} {type : Leaf}
    {allowed : List Json} (h : entries.outline kind = .ok (.leaf type allowed)) :
    type.bounds.inverted = false := by
  unfold outline at h
  repeat' split at h
  all_goals first
    | obtain ⟨rfl, hb⟩ := leafOutline_eq_leaf h
      first
        | exact hb
        | rfl
    | cases h

end Entries

namespace Declaration

/-- What is known of a declaration that comes from a well keyed node. -/
theorem wellFormed_header {node : Json} (hd : node.WellKeyed) {header : Header} {o : Outline}
    (h : ofJson node = .ok ⟨header, o⟩) : header.WellFormed := by
  rw [ofJson] at h
  split at h
  · cases h
  · next entries he =>
    split at h
    · cases h
    · split at h
      · cases h
      · cases h
        exact Entries.header_wellFormed hd he

theorem inverted_bounds {node : Json} {header : Header} {type : Leaf} {allowed : List Json}
    (h : ofJson node = .ok ⟨header, .leaf type allowed⟩) : type.bounds.inverted = false := by
  obtain ⟨entries, kind, -, ho⟩ := exists_entries h
  exact Entries.outline_leaf_bounds ho

theorem wellKeyed_items {node : Json} (hd : node.WellKeyed) {header : Header} {unique : Bool}
    {items : Json} (h : ofJson node = .ok ⟨header, .array unique items⟩) : items.WellKeyed := by
  obtain ⟨entries, kind, he, ho⟩ := exists_entries h
  exact Entries.wellKeyed_of_get? hd he (Entries.get?_items_of_outline ho)

theorem wellKeyed_properties {node : Json} (hd : node.WellKeyed) {header : Header}
    {properties : List (String × Json)}
    (h : ofJson node = .ok ⟨header, .object properties⟩) :
    (Json.object properties).WellKeyed := by
  obtain ⟨entries, kind, he, ho⟩ := exists_entries h
  exact Entries.wellKeyed_of_get? hd he (Entries.get?_properties_of_outline ho)

end Declaration

namespace Schema

section Reading

variable {path : String} {definition : Json} {header : Header}

/-- What a definition is read as, by what its own attributes tell. -/
theorem ofJson_eq : ofJson path definition = match Declaration.ofJson definition with
    | .error flaw => .error ⟨path, flaw⟩
    | .ok ⟨header, .leaf type allowed⟩ => .ok (.leaf header type allowed)
    | .ok ⟨header, .openObject⟩ => .ok (.openObject header)
    | .ok ⟨header, .array unique items⟩ =>
      (ofJson (path ++ "[]") items).map (.array header unique)
    | .ok ⟨header, .object properties⟩ => (ofMembers path properties).map (.object header) := by
  rw [ofJson]
  split
  · next h => rw [h]
  · next h => rw [h]
  · next h => rw [h]
  · next unique items h =>
    rw [h]
    cases hitems : ofJson (path ++ "[]") items <;> simp only [hitems, Except.map]
  · next properties h =>
    rw [h]
    cases hfields : ofMembers path properties <;> simp only [hfields, Except.map]

theorem ofJson_of_flawed {flaw : Flaw} (h : Declaration.ofJson definition = .error flaw) :
    ofJson path definition = .error ⟨path, flaw⟩ := by
  rw [ofJson_eq, h]

theorem ofJson_of_leaf {type : Leaf} {allowed : List Json}
    (h : Declaration.ofJson definition = .ok ⟨header, .leaf type allowed⟩) :
    ofJson path definition = .ok (.leaf header type allowed) := by
  rw [ofJson_eq, h]

theorem ofJson_of_openObject (h : Declaration.ofJson definition = .ok ⟨header, .openObject⟩) :
    ofJson path definition = .ok (.openObject header) := by
  rw [ofJson_eq, h]

theorem ofJson_eq_map_array {unique : Bool} {items : Json}
    (h : Declaration.ofJson definition = .ok ⟨header, .array unique items⟩) :
    ofJson path definition = (ofJson (path ++ "[]") items).map (array header unique) := by
  rw [ofJson_eq, h]

theorem ofJson_eq_map_object {properties : List (String × Json)}
    (h : Declaration.ofJson definition = .ok ⟨header, .object properties⟩) :
    ofJson path definition = (ofMembers path properties).map (object header) := by
  rw [ofJson_eq, h]

theorem ofJson_of_array {unique : Bool} {items : Json} {child : Schema}
    (h : Declaration.ofJson definition = .ok ⟨header, .array unique items⟩)
    (hi : ofJson (path ++ "[]") items = .ok child) :
    ofJson path definition = .ok (.array header unique child) := by
  rw [ofJson_eq_map_array h, hi]
  rfl

theorem ofJson_of_object {properties : List (String × Json)} {nodes : List (String × Schema)}
    (h : Declaration.ofJson definition = .ok ⟨header, .object properties⟩)
    (hp : ofMembers path properties = .ok nodes) :
    ofJson path definition = .ok (.object header nodes) := by
  rw [ofJson_eq_map_object h, hp]
  rfl

theorem ofMembers_nil : ofMembers path [] = .ok [] := by rw [ofMembers]

theorem ofMembers_cons_eq {name : String} {rest : List (String × Json)} :
    ofMembers path ((name, definition) :: rest) = (do
      let child ← ofJson (path ++ "." ++ name) definition
      let others ← ofMembers path rest
      pure ((name, child) :: others)) := by
  rw [ofMembers]
  cases ofJson (path ++ "." ++ name) definition with
  | error flawed => rfl
  | ok child => cases ofMembers path rest <;> rfl

theorem ofMembers_cons {name : String} {rest : List (String × Json)} {child : Schema}
    {others : List (String × Schema)} (h : ofJson (path ++ "." ++ name) definition = .ok child)
    (hr : ofMembers path rest = .ok others) :
    ofMembers path ((name, definition) :: rest) = .ok ((name, child) :: others) := by
  rw [ofMembers_cons_eq, h, hr]
  rfl

theorem ofMembers_eq_cons {name : String} {rest : List (String × Json)}
    {nodes : List (String × Schema)}
    (h : ofMembers path ((name, definition) :: rest) = .ok nodes) :
    ∃ child others, nodes = (name, child) :: others ∧
      ofJson (path ++ "." ++ name) definition = .ok child ∧ ofMembers path rest = .ok others := by
  rw [ofMembers_cons_eq] at h
  obtain ⟨child, hchild, h⟩ := bind_eq_ok_iff.mp h
  obtain ⟨others, hothers, h⟩ := bind_eq_ok_iff.mp h
  cases h
  exact ⟨child, others, rfl, hchild, hothers⟩

/-- A definition that is read as a node has the node's outline, above what is read below. -/
theorem exists_outline_of_ofJson {node : Schema} (h : ofJson path definition = .ok node) :
    ∃ o, Declaration.ofJson definition = .ok ⟨node.header, o⟩ ∧
      match node with
      | leaf _ type allowed => o = .leaf type allowed
      | openObject _ => o = .openObject
      | array _ unique child => ∃ items, o = .array unique items ∧
          ofJson (path ++ "[]") items = .ok child
      | object _ nodes => ∃ properties, o = .object properties ∧
          ofMembers path properties = .ok nodes := by
  cases hread : Declaration.ofJson definition with
  | error flaw =>
    rw [ofJson_of_flawed hread] at h
    cases h
  | ok d =>
    obtain ⟨header, o⟩ := d
    cases o with
    | leaf type allowed =>
      rw [ofJson_of_leaf hread] at h
      cases h
      exact ⟨_, rfl, rfl⟩
    | openObject =>
      rw [ofJson_of_openObject hread] at h
      cases h
      exact ⟨_, rfl, rfl⟩
    | array unique items =>
      rw [ofJson_eq_map_array hread] at h
      obtain ⟨child, hchild, h⟩ := map_eq_ok_iff.mp h
      cases h
      exact ⟨_, rfl, items, rfl, hchild⟩
    | object properties =>
      rw [ofJson_eq_map_object hread] at h
      obtain ⟨nodes, hnodes, h⟩ := map_eq_ok_iff.mp h
      cases h
      exact ⟨_, rfl, properties, rfl, hnodes⟩

theorem ofJson_eq_array {unique : Bool} {child : Schema}
    (h : ofJson path definition = .ok (.array header unique child)) :
    ∃ items, Declaration.ofJson definition = .ok ⟨header, .array unique items⟩ ∧
      ofJson (path ++ "[]") items = .ok child := by
  obtain ⟨_, hread, items, rfl, hchild⟩ := exists_outline_of_ofJson h
  exact ⟨items, hread, hchild⟩

theorem ofJson_eq_object {nodes : List (String × Schema)}
    (h : ofJson path definition = .ok (.object header nodes)) :
    ∃ properties, Declaration.ofJson definition = .ok ⟨header, .object properties⟩ ∧
      ofMembers path properties = .ok nodes := by
  obtain ⟨_, hread, properties, rfl, hnodes⟩ := exists_outline_of_ofJson h
  exact ⟨properties, hread, hnodes⟩

/-- Every field that was read was read from a member. -/
theorem exists_ofJson_of_mem {members : List (String × Json)} {nodes : List (String × Schema)}
    (h : ofMembers path members = .ok nodes) {name : String} {child : Schema}
    (hm : (name, child) ∈ nodes) : ∃ path part, ofJson path part = .ok child := by
  induction members generalizing nodes with
  | nil =>
    rw [ofMembers_nil] at h
    cases h
    cases hm
  | cons head rest ih =>
    obtain ⟨key, definition⟩ := head
    obtain ⟨first, others, rfl, hfirst, hothers⟩ := ofMembers_eq_cons h
    rcases List.mem_cons.mp hm with he | hm
    · cases he
      exact ⟨_, definition, hfirst⟩
    · exact ih hothers hm

/-- Every node of a tree that was read was read itself. -/
theorem exists_ofJson_of_contains {node inner : Schema} (hc : node.Contains inner)
    (h : ofJson path definition = .ok node) : ∃ path part, ofJson path part = .ok inner := by
  induction hc generalizing path definition with
  | self => exact ⟨path, definition, h⟩
  | field hm _ ih =>
    obtain ⟨properties, -, hnodes⟩ := ofJson_eq_object h
    obtain ⟨path, part, hchild⟩ := exists_ofJson_of_mem hnodes hm
    exact ih hchild
  | items _ ih =>
    obtain ⟨items, -, hchild⟩ := ofJson_eq_array h
    exact ih hchild

end Reading

mutual

/-- A schema read from a well keyed value is well formed. -/
theorem wellFormed_of_ofJson {path : String} {definition : Json} {node : Schema}
    (hd : definition.WellKeyed) (h : ofJson path definition = .ok node) : node.WellFormed := by
  obtain ⟨o, hread, hbelow⟩ := exists_outline_of_ofJson h
  have hheader := Declaration.wellFormed_header hd hread
  cases node with
  | leaf header type allowed =>
    cases hbelow
    exact .leaf hheader (Declaration.inverted_bounds hread)
  | openObject header => exact .openObject hheader
  | array header unique child =>
    obtain ⟨items, rfl, hchild⟩ := hbelow
    have hsize := Declaration.sizeOf_items hread
    exact .array hheader (wellFormed_of_ofJson (Declaration.wellKeyed_items hd hread) hchild)
  | object header nodes =>
    obtain ⟨properties, rfl, hnodes⟩ := hbelow
    have hsize := Declaration.sizeOf_properties hread
    cases Declaration.wellKeyed_properties hd hread with
    | object hnames hvalues =>
      obtain ⟨hkeys, hwell⟩ := wellFormed_of_ofMembers hvalues hnodes
      rw [← hkeys] at hnames
      exact .object hheader hnames hwell
termination_by sizeOf definition

/-- Fields read one after another keep their names and are well formed. -/
theorem wellFormed_of_ofMembers {path : String} {members : List (String × Json)}
    {nodes : List (String × Schema)} (hd : ∀ name v, (name, v) ∈ members → v.WellKeyed)
    (h : ofMembers path members = .ok nodes) :
    nodes.map Prod.fst = members.map Prod.fst ∧
      ∀ name node, (name, node) ∈ nodes → node.WellFormed := by
  match members with
  | [] =>
    rw [ofMembers_nil] at h
    cases h
    exact ⟨rfl, by simp⟩
  | (name, definition) :: rest =>
    obtain ⟨child, others, rfl, hchild, hothers⟩ := ofMembers_eq_cons h
    have hfirst := wellFormed_of_ofJson (hd name definition List.mem_cons_self) hchild
    obtain ⟨hkeys, hwell⟩ := wellFormed_of_ofMembers
      (fun name v hm => hd name v (List.mem_cons_of_mem _ hm)) hothers
    refine ⟨by rw [List.map_cons, List.map_cons, hkeys], ?_⟩
    intro key node hm
    rcases List.mem_cons.mp hm with he | hm
    · cases he
      exact hfirst
    · exact hwell key node hm
termination_by sizeOf members

end

end Schema

/-- A definition with a required field, a default that a nested default completes,
and an array of distinct elements. -/
def retryDefinition : Json :=
  .object [("type", .string "object"), ("properties", .object [
    ("name", .object [("type", .string "string"), ("required", .bool true)]),
    ("retry", .object [("type", .string "object"),
      ("default", .object [("attempts", .number (.integer 5))]),
      ("properties", .object [
        ("attempts", .object [("type", .string "integer"), ("minimum", .number (.integer 1))]),
        ("pause", .object [("type", .string "string"), ("default", .string "1 s")])])]),
    ("tags", .object [("type", .string "array"), ("uniqueItems", .bool true),
      ("items", .object [("type", .string "string")])])])]

/-- The schema that `retryDefinition` is read as. -/
def retrySchema : Schema :=
  .object {} [
    ("name", .leaf { required := true } .string []),
    ("retry", .object { default := some (.object [("attempts", .number (.integer 5))]) } [
      ("attempts", .leaf {} (.integer { minimum := some (.integer 1) }) []),
      ("pause", .leaf { default := some (.string "1 s") } .string [])]),
    ("tags", .array {} true (.leaf {} .string []))]

theorem ofJson_retryDefinition (path : String) :
    Schema.ofJson path retryDefinition = .ok retrySchema := by
  apply Schema.ofJson_of_object rfl
  apply Schema.ofMembers_cons (Schema.ofJson_of_leaf rfl)
  refine Schema.ofMembers_cons (Schema.ofJson_of_object rfl ?_)
    (Schema.ofMembers_cons (Schema.ofJson_of_array rfl ?_) Schema.ofMembers_nil)
  · apply Schema.ofMembers_cons (Schema.ofJson_of_leaf rfl)
    exact Schema.ofMembers_cons (Schema.ofJson_of_leaf rfl) Schema.ofMembers_nil
  · exact Schema.ofJson_of_leaf rfl

theorem wellKeyed_retryDefinition : retryDefinition.WellKeyed := by decide

end PipelineConfig
