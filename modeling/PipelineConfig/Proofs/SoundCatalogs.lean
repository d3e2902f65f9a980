import Mathlib.Algebra.BigOperators.Group.List.Basic
import Mathlib.Algebra.Ring.Nat
import Mathlib.Data.List.Forall2
import PipelineConfig.Proofs.Redefinition
import PipelineConfig.Tool.Session

/-!
# Sound catalogs

The definition of a catalog is sound if it gives categories their stage types, and every
stage type an object whose defaults satisfy their own nodes. The main statement is that a
catalog is read exactly from a sound definition, and that all questions to the catalog are
then answered by the definition alone.
-/

namespace PipelineConfig

namespace Members

variable {κ α β : Type} {f : κ → String} {r : α → β → Prop} {members : List (String × α)}
  {others : List (κ × β)}

/-- The members stand for others one by one, with keys that name the others' keys and with
related values. -/
def Matches (f : κ → String) (r : α → β → Prop) :
    List (String × α) → List (κ × β) → Prop :=
  List.Forall₂ fun m n => m.1 = f n.1 ∧ r m.2 n.2

theorem exists_matches_iff : (∃ others, Matches f r members others) ↔
    ∀ key a, (key, a) ∈ members → ∃ k b, key = f k ∧ r a b := by
  induction members with
  | nil => exact ⟨fun _ => by simp, fun _ => ⟨[], .nil⟩⟩
  | cons head rest ih =>
    constructor
    · rintro ⟨_, hm⟩ key a hin
      cases hm with
      | cons hhead hrest =>
        rcases List.mem_cons.mp hin with rfl | hin
        · exact ⟨_, _, hhead⟩
        · exact ih.mp ⟨_, hrest⟩ key a hin
    · intro h
      obtain ⟨k, b, hhead⟩ := h head.1 head.2 List.mem_cons_self
      obtain ⟨others, hrest⟩ := ih.mpr fun key a hin => h key a (List.mem_cons_of_mem _ hin)
      exact ⟨(k, b) :: others, .cons hhead hrest⟩

namespace Matches

theorem keys (h : Matches f r members others) :
    members.map Prod.fst = (others.map Prod.fst).map f := by
  induction h with
  | nil => rfl
  | cons hhead _ ih => rw [List.map_cons, List.map_cons, List.map_cons, hhead.1, ih]

/-- What is found under a key is related to what is found under the name of the key. -/
theorem lookup [DecidableEq κ] (hf : Function.Injective f) (h : Matches f r members others)
    (k : κ) : (members.lookup (f k) = none ∧ others.lookup k = none) ∨
      ∃ a b, members.lookup (f k) = some a ∧ others.lookup k = some b ∧ r a b := by
  induction h with
  | nil => exact .inl ⟨rfl, rfl⟩
  | @cons m n rest others hhead hrest ih =>
    obtain ⟨key, a⟩ := m
    obtain ⟨j, b⟩ := n
    obtain ⟨rfl, hr⟩ := hhead
    rw [List.lookup_cons, List.lookup_cons]
    by_cases hk : k = j
    · rw [hk, beq_self_eq_true, beq_self_eq_true]
      exact .inr ⟨a, b, rfl, rfl, hr⟩
    · rw [beq_eq_false_iff_ne.mpr hk, beq_eq_false_iff_ne.mpr fun he => hk (hf he)]
      exact ih

end Matches

end Members

namespace Schema

mutual

/-- The path only names the node in complaints: a node that is read is the same under any. -/
theorem ofJson_of_other {path other : String} {definition : Json} {node : Schema}
    (h : ofJson path definition = .ok node) : ofJson other definition = .ok node := by
  obtain ⟨o, hread, hbelow⟩ := exists_outline_of_ofJson h
  cases node with
  | leaf header type allowed =>
    cases hbelow
    exact ofJson_of_leaf hread
  | openObject header =>
    cases hbelow
    exact ofJson_of_openObject hread
  | array header unique child =>
    obtain ⟨items, rfl, hchild⟩ := hbelow
    have hsize := Declaration.sizeOf_items hread
    exact ofJson_of_array hread (ofJson_of_other hchild)
  | object header nodes =>
    obtain ⟨properties, rfl, hnodes⟩ := hbelow
    have hsize := Declaration.sizeOf_properties hread
    exact ofJson_of_object hread (ofMembers_of_other hnodes)
termination_by sizeOf definition

theorem ofMembers_of_other {path other : String} {members : List (String × Json)}
    {nodes : List (String × Schema)} (h : ofMembers path members = .ok nodes) :
    ofMembers other members = .ok nodes := by
  match members with
  | [] =>
    rw [ofMembers_nil] at h ⊢
    exact h
  | (name, definition) :: rest =>
    obtain ⟨child, others, rfl, hchild, hothers⟩ := ofMembers_eq_cons h
    exact ofMembers_cons (ofJson_of_other hchild) (ofMembers_of_other hothers)
termination_by sizeOf members

end

end Schema

/-- The value defines the schema of a stage: an object whose defaults, and all below it,
satisfy their own nodes. -/
structure Json.DefinesStage (definition : Json) (node : Schema) : Prop where
  /-- The value is a definition of the node, wherever it stands. -/
  read : ∀ path, Schema.ofJson path definition = .ok node
  /-- The node is an object. -/
  object : node.kind = .object
  /-- Every default is accepted by its own node. -/
  defaults : ∀ inner v, node.Contains inner → inner.header.default = some v →
    (inner.validate {} v).violations = []

/-- The value gives categories their stage types, each with a sound definition. -/
def Json.DefinesCatalog (definition : Json) : Prop :=
  ∃ members, definition = .object members ∧ ∀ name v, (name, v) ∈ members →
    (∃ category : Category, name = category.name) ∧
      ∃ entries, v = .object entries ∧ ∀ typeKey part, (typeKey, part) ∈ entries →
        ∃ node, part.DefinesStage node

/-- The stage types that the value gives a category, with their definitions. -/
def Json.entriesOf (definition : Json) (category : Category) : List (String × Json) :=
  match definition with
  | .object members =>
    match members.lookup category.name with
    | some (.object entries) => entries
    | _ => []
  | _ => []

theorem Category.name_injective : Function.Injective Category.name := by
  intro a b h
  cases a <;> cases b <;> first | rfl | exact absurd h (by decide)

namespace Catalog

/-- The value gives the stages of one category. -/
def ReadsStages (definition : Json) (stages : Stages) : Prop :=
  ∃ entries, definition = .object entries ∧ Members.Matches id Json.DefinesStage entries stages

variable {definition : Json} {catalog : Catalog}

theorem readStage_iff {path : String} {node : Schema} :
    readStage path definition = .ok node ↔ definition.DefinesStage node := by
  rw [readStage_eq_ok_iff]
  constructor
  · rintro ⟨hread, hkind, hfaulty⟩
    exact ⟨fun other => Schema.ofJson_of_other hread, hkind,
      fun inner v hc hv => Schema.violations_default_of_contains hc hfaulty hv⟩
  · rintro ⟨hread, hkind, hdefaults⟩
    exact ⟨hread path, hkind,
      Schema.faultyDefault?_eq_none (fun inner hc v hv => hdefaults inner v hc hv) path⟩

theorem readStages_iff {category : Category} {entries : List (String × Json)} {stages : Stages} :
    readStages category entries = .ok stages ↔
      Members.Matches id Json.DefinesStage entries stages := by
  induction entries generalizing stages with
  | nil =>
    rw [readStages]
    constructor
    · intro h
      cases h
      exact .nil
    · intro h
      cases h
      rfl
  | cons head rest ih =>
    obtain ⟨typeKey, part⟩ := head
    rw [readStages]
    constructor
    · intro h
      obtain ⟨node, hnode, h⟩ := bind_eq_ok_iff.mp h
      obtain ⟨others, hothers, h⟩ := bind_eq_ok_iff.mp h
      cases h
      exact .cons ⟨rfl, readStage_iff.mp hnode⟩ (ih.mp hothers)
    · intro h
      cases h with
      | @cons _ n _ others hhead hrest =>
        obtain ⟨key, node⟩ := n
        obtain ⟨rfl, hnode⟩ := hhead
        rw [readStage_iff.mpr hnode, ih.mpr hrest]
        rfl

theorem readCategories_iff {members : List (String × Json)}
    {categories : List (Category × Stages)} :
    readCategories members = .ok categories ↔
      Members.Matches Category.name ReadsStages members categories := by
  induction members generalizing categories with
  | nil =>
    rw [readCategories]
    constructor
    · intro h
      cases h
      exact .nil
    · intro h
      cases h
      rfl
  | cons head rest ih =>
    obtain ⟨name, v⟩ := head
    constructor
    · intro h
      obtain ⟨category, entries, rfl, rfl⟩ := exists_of_readCategories_cons h
      rw [readCategories_cons] at h
      obtain ⟨stages, hstages, h⟩ := bind_eq_ok_iff.mp h
      obtain ⟨others, hothers, h⟩ := bind_eq_ok_iff.mp h
      cases h
      exact .cons ⟨rfl, entries, rfl, readStages_iff.mp hstages⟩ (ih.mp hothers)
    · intro h
      cases h with
      | @cons _ n _ others hhead hrest =>
        obtain ⟨category, stages⟩ := n
        obtain ⟨rfl, entries, rfl, hstages⟩ := hhead
        rw [readCategories_cons, readStages_iff.mpr hstages, ih.mpr hrest]
        rfl

/-- A catalog is read from what defines the stages of its categories one by one. -/
theorem ofJson_iff : Catalog.ofJson definition = .ok catalog ↔ ∃ members,
    definition = .object members ∧
      Members.Matches Category.name ReadsStages members catalog.categories := by
  constructor
  · intro h
    cases definition with
    | object members =>
      rw [Catalog.ofJson] at h
      cases hcategories : readCategories members with
      | error e =>
        rw [hcategories] at h
        cases h
      | ok categories =>
        rw [hcategories] at h
        cases h
        exact ⟨members, rfl, readCategories_iff.mp hcategories⟩
    | null | bool | number | string | array => cases h
  · rintro ⟨members, rfl, hmatches⟩
    rw [Catalog.ofJson, readCategories_iff.mpr hmatches]
    rfl

/-- There is a catalog to be read exactly if its definition is sound. -/
theorem exists_ofJson_iff : (∃ catalog, Catalog.ofJson definition = .ok catalog) ↔
    definition.DefinesCatalog := by
  have hstages : ∀ v, (∃ stages, ReadsStages v stages) ↔ ∃ entries, v = .object entries ∧
      ∀ typeKey part, (typeKey, part) ∈ entries → ∃ node, Json.DefinesStage part node := by
    intro v
    constructor
    · rintro ⟨stages, entries, rfl, hmatches⟩
      refine ⟨entries, rfl, fun typeKey part hm => ?_⟩
      obtain ⟨_, node, -, hnode⟩ := Members.exists_matches_iff.mp ⟨stages, hmatches⟩ typeKey part hm
      exact ⟨node, hnode⟩
    · rintro ⟨entries, rfl, hentries⟩
      have hmatches : ∃ stages, Members.Matches id Json.DefinesStage entries stages := by
        refine Members.exists_matches_iff.mpr fun typeKey part hm => ?_
        obtain ⟨node, hnode⟩ := hentries typeKey part hm
        exact ⟨typeKey, node, rfl, hnode⟩
      obtain ⟨stages, hstages⟩ := hmatches
      exact ⟨stages, entries, rfl, hstages⟩
  constructor
  · rintro ⟨catalog, hcatalog⟩
    obtain ⟨members, rfl, hmatches⟩ := ofJson_iff.mp hcatalog
    refine ⟨members, rfl, fun name v hm => ?_⟩
    obtain ⟨category, stages, rfl, hread⟩ := Members.exists_matches_iff.mp ⟨_, hmatches⟩ name v hm
    exact ⟨⟨category, rfl⟩, (hstages v).mp ⟨stages, hread⟩⟩
  · rintro ⟨members, rfl, hmembers⟩
    have hmatches : ∃ categories, Members.Matches Category.name ReadsStages members categories := by
      refine Members.exists_matches_iff.mpr fun name v hm => ?_
      obtain ⟨⟨category, hname⟩, hentries⟩ := hmembers name v hm
      obtain ⟨stages, hread⟩ := (hstages v).mpr hentries
      exact ⟨category, stages, hname, hread⟩
    obtain ⟨categories, hcategories⟩ := hmatches
    exact ⟨⟨categories⟩, ofJson_iff.mpr ⟨members, rfl, hcategories⟩⟩

section Read

variable (hcatalog : Catalog.ofJson definition = .ok catalog) (category : Category)

include hcatalog

/-- The stages of a category are those that the definition gives it. -/
theorem matches_entriesOf :
    Members.Matches id Json.DefinesStage (definition.entriesOf category)
      (catalog.stages category) := by
  obtain ⟨members, rfl, hmatches⟩ := ofJson_iff.mp hcatalog
  rw [Json.entriesOf, stages]
  obtain ⟨habsent, hnone⟩ | ⟨v, read, hgiven, hread, entries, rfl, hentries⟩ :=
    hmatches.lookup Category.name_injective category
  · rw [habsent, hnone]
    exact .nil
  · rw [hgiven, hread]
    exact hentries

theorem keys_stages : (catalog.stages category).map Prod.fst =
    (definition.entriesOf category).map Prod.fst := by
  rw [(matches_entriesOf hcatalog category).keys, List.map_id]

variable {typeKey : String}

/-- A stage that the definition gives a category is found, as what it is a definition of. -/
theorem lookup_of_entry {part : Json}
    (h : (definition.entriesOf category).lookup typeKey = some part) :
    ∃ node, part.DefinesStage node ∧ catalog.lookup category typeKey = .ok node := by
  obtain ⟨hnone, -⟩ | ⟨a, node, ha, hnode, hdefines⟩ :=
    (matches_entriesOf hcatalog category).lookup Function.injective_id typeKey
  · rw [id_eq, h] at hnone
    cases hnone
  · rw [id_eq, h] at ha
    cases ha
    exact ⟨node, hdefines, lookup_eq_ok_iff.mpr hnode⟩

theorem lookup_of_no_entry (h : (definition.entriesOf category).lookup typeKey = none) :
    catalog.lookup category typeKey = .error (.unknownType category.name typeKey) := by
  obtain ⟨-, hnone⟩ | ⟨a, node, ha, -⟩ :=
    (matches_entriesOf hcatalog category).lookup Function.injective_id typeKey
  · rw [lookup, hnone]
  · rw [id_eq, h] at ha
    cases ha

theorem mem_typeKeys_iff : typeKey ∈ catalog.typeKeys category ↔
    typeKey ∈ (definition.entriesOf category).map Prod.fst := by
  rw [mem_typeKeys, keys_stages hcatalog]

end Read

section Order

variable (hd : definition.WellKeyed) (hcatalog : Catalog.ofJson definition = .ok catalog)

include hd hcatalog

/-- No category and no stage type is defined twice. -/
theorem nodup_keys : (catalog.categories.map Prod.fst).Nodup ∧
    ∀ category, ((catalog.stages category).map Prod.fst).Nodup := by
  obtain ⟨members, rfl, hmatches⟩ := ofJson_iff.mp hcatalog
  cases hd with
  | object hkeys hvalues =>
    constructor
    · rw [hmatches.keys] at hkeys
      exact hkeys.of_map _
    · intro category
      rw [keys_stages hcatalog, Json.entriesOf]
      cases hlookup : members.lookup category.name with
      | none => exact List.nodup_nil
      | some v =>
        have hv := hvalues _ v (Members.mem_of_lookup hlookup)
        cases hv with
        | object hentries _ => exact hentries
        | null | bool | number | string | array => exact List.nodup_nil

theorem pairwise_typeKeys (category : Category) :
    (catalog.typeKeys category).Pairwise (· < ·) := by
  have hdistinct : (catalog.typeKeys category).Nodup :=
    (List.mergeSort_perm _ _).nodup_iff.mpr ((nodup_keys hd hcatalog).2 category)
  refine (sorted_typeKeys.and hdistinct).imp fun {a b} ⟨hle, hne⟩ => ?_
  exact Std.lt_of_le_of_ne (of_decide_eq_true hle) hne

end Order

theorem length_typeKeys (category : Category) :
    (catalog.typeKeys category).length = (catalog.stages category).length := by
  rw [typeKeys, List.length_mergeSort, List.length_map]

/-- If no category is defined twice, then all stages are counted by category. -/
theorem size_eq (h : (catalog.categories.map Prod.fst).Nodup) : catalog.size =
    (Category.all.map fun category => (catalog.typeKeys category).length).sum := by
  simp only [length_typeKeys, stages, size]
  generalize catalog.categories = categories at h
  induction categories with
  | nil => rfl
  | cons head rest ih =>
    obtain ⟨category, first⟩ := head
    obtain ⟨habsent, hrest⟩ := List.nodup_cons.mp h
    have hnone : rest.lookup category = none := by
      refine List.lookup_eq_none_iff.mpr fun m hm => bne_iff_ne.mpr ?_
      rintro rfl
      exact habsent (List.mem_map.mpr ⟨m, hm, rfl⟩)
    have hcount : ∀ k, ((((category, first) :: rest).lookup k).getD []).length =
        (if k = category then first.length else 0) + ((rest.lookup k).getD []).length := by
      intro k
      rw [List.lookup_cons]
      by_cases hk : k = category
      · rw [hk, beq_self_eq_true, if_pos rfl, hnone]
        rfl
      · rw [beq_eq_false_iff_ne.mpr hk, if_neg hk, Nat.zero_add]
    have hone : (Category.all.map fun k => if k = category then first.length else 0).sum =
        first.length := by
      cases category <;> simp [Category.all]
    simp only [hcount]
    rw [List.sum_map_add, hone, List.foldr_cons, ih hrest]

/-- The answers that a catalog gives are those that its definition makes it give. -/
structure Answers (catalog : Catalog) (definition : Json) : Prop where
  /-- A stage that is defined is found, as the node that its definition is read as. -/
  found : ∀ category typeKey part, (definition.entriesOf category).lookup typeKey = some part →
    ∃ node, (∀ path, Schema.ofJson path part = .ok node) ∧
      catalog.lookup category typeKey = .ok node
  /-- No other stage is found. -/
  missing : ∀ category typeKey, (definition.entriesOf category).lookup typeKey = none →
    catalog.lookup category typeKey = .error (.unknownType category.name typeKey)
  /-- The catalog has the stages that are found. -/
  contains : ∀ category typeKey, catalog.contains category typeKey = true ↔
    ∃ node, catalog.lookup category typeKey = .ok node
  /-- The stage types of a category ascend. -/
  ascending : ∀ category, (catalog.typeKeys category).Pairwise (· < ·)
  /-- They are those that are defined. -/
  typeKeys : ∀ category typeKey, typeKey ∈ catalog.typeKeys category ↔
    typeKey ∈ (definition.entriesOf category).map Prod.fst
  /-- All of them are counted. -/
  size : catalog.size = (Category.all.map fun category => (catalog.typeKeys category).length).sum
  /-- All of them are listed, by category. -/
  listing : catalog.listing none = .ok (.object (Category.all.map fun category =>
    (category.name, .array ((catalog.typeKeys category).map .string))))
  /-- Those of one category are listed if it is named. -/
  listingOf : ∀ category : Category, catalog.listing (some category.name) =
    .ok (.object [(category.name, .array ((catalog.typeKeys category).map .string))])

/-- A catalog is read exactly if its definition is sound, and then answers exactly what
was defined. -/
theorem read_iff_sound (definition : Json) (hd : definition.WellKeyed) :
    ((∃ catalog, Catalog.ofJson definition = .ok catalog) ↔ definition.DefinesCatalog) ∧
      ∀ catalog, Catalog.ofJson definition = .ok catalog → catalog.Answers definition := by
  refine ⟨exists_ofJson_iff, fun catalog hcatalog => ?_⟩
  exact {
    found := fun category typeKey part hpart => by
      obtain ⟨node, hnode, hlookup⟩ := lookup_of_entry hcatalog category hpart
      exact ⟨node, hnode.read, hlookup⟩
    missing := fun category typeKey hnone => lookup_of_no_entry hcatalog category hnone
    contains := fun category typeKey => by
      rw [Catalog.contains, Option.isSome_iff_exists]
      exact exists_congr fun node => lookup_eq_ok_iff.symm
    ascending := pairwise_typeKeys hd hcatalog
    typeKeys := fun category typeKey => mem_typeKeys_iff hcatalog category
    size := size_eq (nodup_keys hd hcatalog).1
    listing := rfl
    listingOf := fun category => by
      rw [Catalog.listing, ofName_name]
      rfl }

/-- The definition of the one stage with nested defaults is sound. Its catalog has that
stage alone. -/
theorem read_iff_sound_retry : retryCatalogDefinition.DefinesCatalog ∧
    retryCatalog.lookup .source "retry" = .ok retrySchema ∧
    retryCatalog.lookup .sink "retry" = .error (.unknownType "sink" "retry") ∧
    retryCatalog.size = 1 := by
  obtain ⟨hsound, hanswers⟩ :=
    read_iff_sound retryCatalogDefinition wellKeyed_retryCatalogDefinition
  have hretry := hanswers retryCatalog ofJson_retryCatalogDefinition
  refine ⟨hsound.mp ⟨retryCatalog, ofJson_retryCatalogDefinition⟩, ?_, ?_, ?_⟩
  · obtain ⟨node, hread, hlookup⟩ := hretry.found .source "retry" retryDefinition rfl
    have hnode := hread "retry"
    rw [ofJson_retryDefinition] at hnode
    cases hnode
    exact hlookup
  · exact hretry.missing .sink "retry" rfl
  · rw [hretry.size]
    simp only [length_typeKeys]
    rfl

end Catalog

end PipelineConfig
