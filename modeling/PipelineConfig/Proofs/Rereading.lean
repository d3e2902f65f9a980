import PipelineConfig.Proofs.Equality
import PipelineConfig.Proofs.Rendering

/-!
# What nodes are read back as

Every node whose bounds are in order is read back from what it is written as, but not
everything comes back. A default that is null is read as none, an object without fields as
one that is open to any, and of a field that is declared twice the first place and the last
node are left. Nothing else is lost: a node comes back as it was exactly if there is none
of this in its tree.
-/

namespace PipelineConfig

/-- The header as it is read back, where a default that is null is none. -/
def Header.reread (header : Header) : Header :=
  { header with default := header.default.filter fun v => !v.isNull }

/-- The outline as it is read back, where an object without fields is open to any. -/
def Outline.reread : Outline → Outline
  | object [] => openObject
  | o => o

theorem Outline.reread_object {properties : List (String × Json)} (h : properties ≠ []) :
    (object properties).reread = object properties := by
  cases properties with
  | nil => exact absurd rfl h
  | cons => rfl

theorem Outline.kind_reread (o : Outline) : o.reread.kind = o.kind := by
  cases o with
  | object properties => cases properties <;> rfl
  | leaf | openObject | array => rfl

theorem Outline.reread_cases (o : Outline) :
    (o ≠ object [] ∧ o.reread = o) ∨ o.reread = openObject := by
  cases o with
  | object properties =>
    cases properties with
    | nil => exact .inr rfl
    | cons => exact .inl ⟨nofun, rfl⟩
  | leaf | openObject | array => exact .inl ⟨nofun, rfl⟩

namespace Entries

variable {entries others : Entries} (h : ∀ a, entries.get? a = others.get? a)

include h

/-- What is said about the field depends on the values other than null alone. -/
theorem header_eq_of_get? : entries.header = others.header := by
  simp only [header, string?, bool?, h]

theorem outline_eq_of_get? (kind : Kind) : entries.outline kind = others.outline kind := by
  have hbounds : entries.bounds = others.bounds := by simp only [bounds, number?, h]
  have hleaf : ∀ type, entries.leafOutline type = others.leafOutline type := fun type => by
    simp only [leafOutline, array?, h, hbounds]
  simp only [outline, has, bool?, h, hbounds, hleaf]
  rfl

end Entries

namespace Declaration

/-- The declaration as it is read back. -/
def reread (d : Declaration) : Declaration := ⟨d.header.reread, d.outline.reread⟩

variable {d : Declaration}
  (hbounds : ∀ type allowed, d.outline = .leaf type allowed → type.bounds.inverted = false)
  (hitems : ∀ unique items, d.outline = .array unique items → items.isNull = false)

include hbounds hitems

theorem sound_reread : d.reread.Sound := by
  have hdefault : ∀ v, d.reread.header.default = some v → v.isNull = false :=
    fun v hv => by simpa using (Option.filter_eq_some_iff.mp hv).2
  rcases d.outline.reread_cases with ⟨hne, he⟩ | he
  · exact ⟨hdefault, fun type allowed ho => hbounds type allowed (he.symm.trans ho),
      fun ho => hne (he.symm.trans ho),
      fun unique items ho => hitems unique items (he.symm.trans ho)⟩
  · exact ⟨hdefault, fun _ _ ho => (nomatch he.symm.trans ho), fun ho => (nomatch he.symm.trans ho),
      fun _ _ ho => (nomatch he.symm.trans ho)⟩

omit hbounds hitems in
/-- An attribute other than the default is written as before. -/
theorem value?_reread {a : Attribute} (ha : a ≠ .default) : d.reread.value? a = d.value? a := by
  obtain ⟨header, outline⟩ := d
  cases a with
  | default => exact absurd rfl ha
  | title | description | direction | required => rfl
  | type | enum | minimum | maximum | uniqueItems | items | properties =>
    cases outline with
    | object properties => cases properties <;> rfl
    | leaf | openObject | array => rfl

/-- What is read from the written node at any attribute is what is read from the node that
comes back. -/
theorem get?_entries_reread (a : Attribute) : d.entries.get? a = d.reread.entries.get? a := by
  rw [get?_entries (sound_reread hbounds hitems), Entries.get?, lookup_entries]
  by_cases ha : a = .default
  · subst ha
    rfl
  · rw [value?_reread ha]
    cases hv : d.value? a with
    | none => rfl
    | some v =>
      have hsound := value?_sound (sound_reread hbounds hitems) ((value?_reread ha).trans hv)
      exact Option.filter_some_pos (by rw [hsound.2]; rfl)

/-- The written node has entries of the right form, whatever its default is. -/
theorem ofJson_entries_reread : Entries.ofJson d.toJson = .ok d.entries := by
  refine ofJson_entries_of_check fun a v hv => ?_
  by_cases ha : a = .default
  · subst ha
    cases v <;> rfl
  · exact (value?_sound (sound_reread hbounds hitems) ((value?_reread ha).trans hv)).1

/-- A declaration comes back without a default that is null, and open if it declares no
fields. -/
theorem ofJson_toJson_reread : ofJson d.toJson = .ok d.reread := by
  have hsound := sound_reread hbounds hitems
  have hget := get?_entries_reread hbounds hitems
  have hkind : d.entries.kind? = d.reread.entries.kind? := by
    rw [kind?_entries, kind?_entries, ← d.outline.kind_reread]
    rfl
  have hback := ofJson_toJson hsound
  rw [ofJson, ofJson_entries hsound] at hback
  rw [ofJson, ofJson_entries_reread hbounds hitems]
  simp only [hkind, Entries.header_eq_of_get? hget, Entries.outline_eq_of_get? hget]
  exact hback

end Declaration

/-- What building guarantees of a schema, at every node of its tree: the values that it holds
are well keyed, and bounds are in order. Fields may be declared twice or not at all, and a
default may be null. -/
inductive Schema.Orderly : Schema → Prop where
  /-- The bounds of a leaf are in order. -/
  | leaf {header : Header} {type : Leaf} {allowed : List Json} : header.WellKeyed →
      type.bounds.inverted = false → (∀ v ∈ allowed, v.WellKeyed) →
      Orderly (.leaf header type allowed)
  /-- Every field that an object declares has an orderly node, whether it is the last one of
  its name or not. -/
  | object {header : Header} {properties : List (String × Schema)} : header.WellKeyed →
      (∀ name node, (name, node) ∈ properties → Orderly node) →
      Orderly (.object header properties)
  /-- An open object has a header alone. -/
  | openObject {header : Header} : header.WellKeyed → Orderly (.openObject header)
  /-- The elements of an array are described by an orderly node. -/
  | array {header : Header} {unique : Bool} {items : Schema} : header.WellKeyed →
      Orderly items → Orderly (.array header unique items)

namespace Schema

mutual

/-- The node as it is read back. -/
def reread : Schema → Schema
  | leaf header type allowed => leaf header.reread type allowed
  | object header properties =>
    match Members.collect (rereadFields properties) with
    | [] => openObject header.reread
    | fields => object header.reread fields
  | openObject header => openObject header.reread
  | array header unique items => array header.reread unique items.reread

/-- The declared fields as they are read back one by one. -/
def rereadFields : List (String × Schema) → List (String × Schema)
  | [] => []
  | (name, node) :: rest => (name, node.reread) :: rereadFields rest

end

variable {node : Schema} {header : Header} {properties : List (String × Schema)}

theorem rereadFields_eq : rereadFields properties = properties.map fun p => (p.1, p.2.reread) := by
  induction properties with
  | nil => rfl
  | cons head rest ih =>
    obtain ⟨name, node⟩ := head
    rw [rereadFields, ih, List.map_cons]

/-- A declared field comes back at its first place, with the node that it has last. -/
theorem collect_rereadFields : Members.collect (rereadFields properties) =
    (Members.collect properties).map fun p => (p.1, p.2.reread) := by
  rw [rereadFields_eq, Members.collect_map]

theorem reread_object_nil : (object header []).reread = openObject header.reread := rfl

theorem reread_object (h : properties ≠ []) : (object header properties).reread =
    object header.reread ((Members.collect properties).map fun p => (p.1, p.2.reread)) := by
  rw [reread, collect_rereadFields]
  split
  · next hnil =>
    exact absurd (Members.collect_eq_nil_iff.mp (List.map_eq_nil_iff.mp hnil)) h
  · rfl

/-- The declaration that a node is written as. Each declared field is written once. -/
def written : Schema → Declaration
  | leaf header type allowed => ⟨header, .leaf type allowed⟩
  | object header properties =>
    ⟨header, .object ((Members.collect properties).map fun p => (p.1, p.2.toJson))⟩
  | openObject header => ⟨header, .openObject⟩
  | array header unique items => ⟨header, .array unique items.toJson⟩

theorem toJson_eq_written (node : Schema) : node.toJson = node.written.toJson := by
  rw [Declaration.toJson_eq]
  cases node with
  | leaf => simp [toJson, Leaf.members, written, Declaration.value?, Outline.kind]
  | object header properties =>
    rw [toJson, toMembers_eq, Members.collect_map]
    simp [written, Declaration.value?, Outline.kind]
  | openObject => simp [toJson, written, Declaration.value?, Outline.kind]
  | array header unique items =>
    cases unique <;> simp [toJson, written, Declaration.value?, Outline.kind]

/-- The declaration of a node comes back. -/
theorem ofJson_written (h : node.Orderly) :
    Declaration.ofJson node.toJson = .ok node.written.reread := by
  rw [toJson_eq_written]
  refine Declaration.ofJson_toJson_reread (fun type allowed ho => ?_) fun unique items ho => ?_
  · cases h with
    | leaf _ hbounds =>
      cases ho
      exact hbounds
    | object | openObject | array => cases ho
  · cases node with
    | array header unique child =>
      cases ho
      exact isNull_toJson child
    | leaf | object | openObject => cases ho

/-- Nodes that are each read back are read back as members. -/
theorem ofMembers_reread {path : String}
    (h : ∀ name node, (name, node) ∈ properties →
      ∀ path, ofJson path node.toJson = .ok node.reread) :
    ofMembers path (properties.map fun p => (p.1, p.2.toJson)) =
      .ok (properties.map fun p => (p.1, p.2.reread)) := by
  induction properties with
  | nil => exact ofMembers_nil
  | cons head rest ih =>
    obtain ⟨name, node⟩ := head
    exact ofMembers_cons (h name node List.mem_cons_self _)
      (ih fun key child hm => h key child (List.mem_cons_of_mem _ hm))

/-- An orderly node is read back, under any path. -/
theorem ofJson_toJson_reread (h : node.Orderly) (path : String) :
    ofJson path node.toJson = .ok node.reread := by
  induction h generalizing path with
  | leaf hheader hbounds hallowed =>
    exact ofJson_of_leaf (ofJson_written (.leaf hheader hbounds hallowed))
  | openObject hheader => exact ofJson_of_openObject (ofJson_written (.openObject hheader))
  | array hheader hitems ih =>
    exact ofJson_of_array (ofJson_written (.array hheader hitems)) (ih _)
  | @object header properties hheader hfields ih =>
    have hread := ofJson_written (.object hheader hfields)
    by_cases hnil : properties = []
    · subst hnil
      exact ofJson_of_openObject hread
    · have hwritten : (Members.collect properties).map (fun p => (p.1, p.2.toJson)) ≠ [] :=
        fun he => hnil (Members.collect_eq_nil_iff.mp (List.map_eq_nil_iff.mp he))
      rw [written, Declaration.reread, Outline.reread_object hwritten] at hread
      rw [reread_object hnil]
      exact ofJson_of_object hread (ofMembers_reread fun name child hm =>
        ih name child (Members.mem_of_mem_collect hm))

/-! ### What is lost -/

/-- The node, whatever is below it, says something that does not come back. -/
inductive Lossy : Schema → Prop where
  /-- A default that is null. -/
  | nullDefault {node : Schema} : node.header.default = some .null → Lossy node
  /-- An object that declares its fields and has none. -/
  | noFields {header : Header} : Lossy (object header [])
  /-- A name under which two fields are declared. -/
  | repeatedName {header : Header} {properties : List (String × Schema)} :
      ¬ (properties.map Prod.fst).Nodup → Lossy (object header properties)

/-- Nothing in the node's tree is lost. -/
def Lossless (node : Schema) : Prop := ∀ inner, node.Contains inner → ¬ inner.Lossy

theorem Lossless.default_ne_null (h : node.Lossless) : node.header.default ≠ some .null :=
  fun hd => h node (.self node) (.nullDefault hd)

theorem lossless_leaf {type : Leaf} {allowed : List Json} :
    (leaf header type allowed).Lossless ↔ header.default ≠ some .null := by
  constructor
  · exact Lossless.default_ne_null
  · intro h inner hc hl
    cases hc
    cases hl with
    | nullDefault hd => exact h hd

theorem lossless_openObject :
    (openObject header).Lossless ↔ header.default ≠ some .null := by
  constructor
  · exact Lossless.default_ne_null
  · intro h inner hc hl
    cases hc
    cases hl with
    | nullDefault hd => exact h hd

theorem lossless_array {unique : Bool} {items : Schema} :
    (array header unique items).Lossless ↔ header.default ≠ some .null ∧ items.Lossless := by
  constructor
  · exact fun h => ⟨h.default_ne_null, fun inner hc => h inner (.items hc)⟩
  · rintro ⟨h, hitems⟩ inner hc hl
    cases hc with
    | self =>
      cases hl with
      | nullDefault hd => exact h hd
    | items hc => exact hitems inner hc hl

theorem lossless_object :
    (object header properties).Lossless ↔ header.default ≠ some .null ∧ properties ≠ [] ∧
      (properties.map Prod.fst).Nodup ∧
      ∀ name child, (name, child) ∈ properties → child.Lossless := by
  constructor
  · intro h
    refine ⟨h.default_ne_null, ?_, ?_, ?_⟩
    · rintro rfl
      exact h _ (.self _) .noFields
    · exact not_not.mp fun hd => h _ (.self _) (.repeatedName hd)
    · exact fun name child hm inner hc => h inner (.field hm hc)
  · rintro ⟨h, hne, hd, hfields⟩ inner hc hl
    cases hc with
    | self =>
      cases hl with
      | nullDefault hnull => exact h hnull
      | noFields => exact hne rfl
      | repeatedName hr => exact hr hd
    | field hm hc => exact hfields _ _ hm inner hc hl

end Schema

theorem Header.reread_eq_self {header : Header} (h : header.default ≠ some .null) :
    header.reread = header := by
  obtain ⟨title, description, direction, default, required⟩ := header
  rcases default with _ | v
  · rfl
  · cases v with
    | null => exact absurd rfl h
    | bool | number | string | array | object => rfl

theorem Bounds.same_refl (bounds : Bounds) : bounds.same bounds = true := by
  have hbound : ∀ n : Option Number, same.sameBound n n = true := fun n => by
    cases n with
    | none => rfl
    | some n => exact n.same_refl
  rw [same, hbound, hbound, Bool.and_self]

theorem Leaf.same_refl (type : Leaf) : type.same type = true := by
  rw [same, beq_self_eq_true, Bounds.same_refl, Bool.and_self]

/-- A header comes back as the same unless its default is null. -/
theorem Header.same_reread_iff {header : Header} (hk : header.WellKeyed) :
    header.reread.same header = true ↔ header.default ≠ some .null := by
  constructor
  · intro h hd
    rw [same, Bool.and_eq_true, reread, hd] at h
    cases h.2
  · intro h
    have hdefault : same.sameDefault header.default header.default = true := by
      cases hd : header.default with
      | none => rfl
      | some v => exact (hk v hd).same_refl
    rw [reread_eq_self h]
    simp only [same, beq_self_eq_true, hdefault, Bool.and_self]

namespace Schema

variable {node : Schema} {header : Header} {properties others : List (String × Schema)}

/-- Fields are the same if they have the same names and nodes, one by one. -/
theorem sameProperties_iff : sameProperties properties others = true ↔
    List.Forall₂ (fun p q => p.1 = q.1 ∧ p.2.same q.2 = true) properties others := by
  induction properties generalizing others with
  | nil => cases others <;> simp [sameProperties]
  | cons head rest ih =>
    obtain ⟨name, node⟩ := head
    cases others with
    | nil => simp [sameProperties]
    | cons other others =>
      rw [sameProperties, Bool.and_eq_true, Bool.and_eq_true, beq_iff_eq, ih, List.forall₂_cons]

theorem names_eq_of_sameProperties (h : sameProperties properties others = true) :
    properties.map Prod.fst = others.map Prod.fst := by
  rw [← List.forall₂_eq_eq_eq, List.forall₂_map_left_iff, List.forall₂_map_right_iff]
  exact (sameProperties_iff.mp h).imp fun _ _ hp => hp.1

/-- Where names are distinct, fields come back as the same if all their nodes do. -/
theorem sameProperties_reread_iff :
    sameProperties (properties.map fun p => (p.1, p.2.reread)) properties = true ↔
      ∀ name child, (name, child) ∈ properties → child.reread.same child = true := by
  rw [sameProperties_iff, List.forall₂_map_left_iff, List.forall₂_same]
  exact ⟨fun h name child hm => (h _ hm).2, fun h p hm => ⟨rfl, h p.1 p.2 hm⟩⟩

/-- If nothing is lost, then the node comes back as it was. -/
theorem reread_eq_self (h : node.Lossless) : node.reread = node := by
  induction node with
  | leaf header type allowed => rw [reread, Header.reread_eq_self (lossless_leaf.mp h)]
  | openObject header => rw [reread, Header.reread_eq_self (lossless_openObject.mp h)]
  | array header unique items ih =>
    obtain ⟨hdefault, hitems⟩ := lossless_array.mp h
    rw [reread, Header.reread_eq_self hdefault, ih hitems]
  | object header properties ih =>
    obtain ⟨hdefault, hne, hd, hfields⟩ := lossless_object.mp h
    have hback : properties.map (fun p => (p.1, p.2.reread)) = properties.map id :=
      List.map_congr_left fun p hm => by rw [ih p.1 p.2 hm (hfields p.1 p.2 hm), id]
    rw [reread_object hne, Header.reread_eq_self hdefault, Members.collect_of_nodup hd, hback,
      List.map_id]

/-- An orderly node comes back as the same exactly if nothing is lost. -/
theorem same_reread_iff (h : node.Orderly) : node.reread.same node = true ↔ node.Lossless := by
  induction h with
  | leaf hheader _ hallowed =>
    have hsame := Json.sameElements_iff.mpr
      (List.forall₂_same.mpr fun v hm => (hallowed v hm).same_refl)
    rw [reread, same, Leaf.same_refl, hsame, Bool.and_true, Bool.and_true,
      Header.same_reread_iff hheader, lossless_leaf]
  | openObject hheader =>
    rw [reread, same, Header.same_reread_iff hheader, lossless_openObject]
  | array hheader _ ih =>
    rw [reread, same, beq_self_eq_true, Bool.and_true, Bool.and_eq_true,
      Header.same_reread_iff hheader, ih, lossless_array]
  | @object header properties hheader _ ih =>
    rw [lossless_object]
    by_cases hnil : properties = []
    · subst hnil
      simp [reread_object_nil, same]
    · rw [reread_object hnil, same, Bool.and_eq_true, Header.same_reread_iff hheader]
      refine and_congr_right fun _ => ⟨fun hs => ?_, fun ⟨_, hd, hfields⟩ => ?_⟩
      · -- Names come back once, so they were distinct before.
        have hd : (properties.map Prod.fst).Nodup := by
          have hnames := names_eq_of_sameProperties hs
          rw [List.map_map] at hnames
          exact hnames ▸ Members.nodup_keys_collect
        rw [Members.collect_of_nodup hd] at hs
        exact ⟨hnil, hd, fun name child hm =>
          (ih name child hm).mp (sameProperties_reread_iff.mp hs name child hm)⟩
      · rw [Members.collect_of_nodup hd]
        exact sameProperties_reread_iff.mpr fun name child hm =>
          (ih name child hm).mpr (hfields name child hm)

end Schema

end PipelineConfig
