import PipelineConfig.Catalog.Basic
import PipelineConfig.Proofs.Walk

/-!
# What a catalog guarantees of its stages

Every stage of an accepted catalog was read from a part of the definition, and no
default in it was found faulty. So its schema is well formed, and every default in it
passes a validation against its own node under the default limits.
-/

namespace PipelineConfig

namespace Schema

variable {node inner : Schema} {path : String}

/-- A node without a faulty default accepts its own. -/
theorem violations_default_of_faultyDefault? (h : node.faultyDefault? path = none) {v : Json}
    (hv : node.header.default = some v) : (node.validate {} v).violations = [] := by
  unfold faultyDefault? at h
  split at h
  · cases h
  · next hnone =>
    rw [hv, Option.bind_some] at hnone
    exact List.head?_eq_none_iff.mp hnone

theorem faultyDefaultBelow?_of_object {header : Header} {properties : List (String × Schema)}
    (h : (object header properties).faultyDefault? path = none) :
    faultyDefaultBelow? path properties = none := by
  rw [faultyDefault?] at h
  split at h
  · cases h
  · exact h

theorem faultyDefault?_items {header : Header} {unique : Bool} {items : Schema}
    (h : (array header unique items).faultyDefault? path = none) :
    items.faultyDefault? (path ++ "[]") = none := by
  rw [faultyDefault?] at h
  split at h
  · cases h
  · exact h

theorem faultyDefault?_of_mem {properties : List (String × Schema)}
    (h : faultyDefaultBelow? path properties = none) {name : String}
    (hm : (name, node) ∈ properties) : node.faultyDefault? (path ++ "." ++ name) = none := by
  induction properties with
  | nil => cases hm
  | cons head rest ih =>
    obtain ⟨key, child⟩ := head
    rw [faultyDefaultBelow?, Option.or_eq_none_iff] at h
    rcases List.mem_cons.mp hm with he | hm
    · cases he
      exact h.1
    · exact ih h.2 hm

/-- Below a node without a faulty default every node accepts its own default. -/
theorem violations_default_of_contains (hc : node.Contains inner)
    (h : node.faultyDefault? path = none) {v : Json} (hv : inner.header.default = some v) :
    (inner.validate {} v).violations = [] := by
  induction hc generalizing path with
  | self => exact violations_default_of_faultyDefault? h hv
  | field hm _ ih => exact ih (faultyDefault?_of_mem (faultyDefaultBelow?_of_object h) hm) hv
  | items _ ih => exact ih (faultyDefault?_items h) hv

theorem faultyDefaultBelow?_eq_none {properties : List (String × Schema)}
    (h : ∀ name child, (name, child) ∈ properties → ∀ path, child.faultyDefault? path = none) :
    faultyDefaultBelow? path properties = none := by
  induction properties with
  | nil => rfl
  | cons head rest ih =>
    obtain ⟨name, child⟩ := head
    refine Option.or_eq_none_iff.mpr ⟨h name child List.mem_cons_self _, ?_⟩
    exact ih fun key other hm => h key other (List.mem_cons_of_mem _ hm)

theorem head?_violations_default (h : ∀ v, node.header.default = some v →
    (node.validate {} v).violations = []) :
    (node.header.default.bind fun v => (node.validate {} v).violations.head?) = none := by
  refine Option.bind_eq_none_iff.mpr fun v hv => ?_
  rw [h v hv]
  rfl

/-- If every node accepts its own default, then no default is faulty, whatever the path. -/
theorem faultyDefault?_eq_none (h : ∀ inner, node.Contains inner → ∀ v,
    inner.header.default = some v → (inner.validate {} v).violations = []) (path : String) :
    node.faultyDefault? path = none := by
  have hown := head?_violations_default (h node (.self node))
  induction node generalizing path with
  | leaf | openObject =>
    unfold faultyDefault?
    rw [hown]
  | object header properties ih =>
    unfold faultyDefault?
    rw [hown]
    refine faultyDefaultBelow?_eq_none fun name child hm path => ?_
    have hchild := fun inner hc => h inner (.field hm hc)
    exact ih name child hm hchild path (head?_violations_default (hchild child (.self child)))
  | array header unique items ih =>
    unfold faultyDefault?
    rw [hown]
    have hitems := fun inner hc => h inner (.items hc)
    exact ih hitems _ (head?_violations_default (hitems items (.self items)))

end Schema

theorem Category.ofName_eq_ok_iff {name : String} {category : Category} :
    ofName name = .ok category ↔ name = category.name := by
  constructor
  · intro h
    rw [ofName] at h
    cases hname : ofName? name with
    | none =>
      rw [hname] at h
      cases h
    | some found =>
      rw [hname] at h
      cases h
      rw [ofName?] at hname
      have hfound := List.find?_some hname
      exact (eq_of_beq hfound).symm
  · rintro rfl
    cases category <;> rfl

namespace Catalog

variable {node : Schema}

/-- A stage is read exactly if its definition is that of an object whose defaults are
not faulty. -/
theorem readStage_eq_ok_iff {path : String} {definition : Json} :
    readStage path definition = .ok node ↔
      Schema.ofJson path definition = .ok node ∧ node.kind = .object ∧
        node.faultyDefault? path = none := by
  rw [readStage]
  constructor
  · intro h
    split at h
    · cases h
    · next found hread =>
      split at h
      · cases h
      · next hkind =>
        split at h
        · cases h
        · next hfaulty =>
          cases h
          exact ⟨hread, Decidable.not_not.mp hkind, hfaulty⟩
  · rintro ⟨hread, hkind, hfaulty⟩
    simp only [hread, hkind, ne_eq, not_true_eq_false, if_false, hfaulty]

theorem readStage_eq_ok {path : String} {definition : Json}
    (h : readStage path definition = .ok node) :
    Schema.ofJson path definition = .ok node ∧ node.faultyDefault? path = none := by
  obtain ⟨hread, -, hfaulty⟩ := readStage_eq_ok_iff.mp h
  exact ⟨hread, hfaulty⟩

/-- Every stage of a category is read from an entry of its definition. -/
theorem exists_readStage_of_mem {category : Category} {entries : List (String × Json)}
    {stages : Stages} (h : readStages category entries = .ok stages) {typeKey : String}
    (hm : (typeKey, node) ∈ stages) :
    ∃ definition, (typeKey, definition) ∈ entries ∧
      readStage (category.name ++ "." ++ typeKey) definition = .ok node := by
  induction entries generalizing stages with
  | nil =>
    cases h
    cases hm
  | cons head rest ih =>
    obtain ⟨key, definition⟩ := head
    rw [readStages] at h
    obtain ⟨child, hstage, h⟩ := bind_eq_ok_iff.mp h
    obtain ⟨others, hrest, h⟩ := bind_eq_ok_iff.mp h
    cases h
    rcases List.mem_cons.mp hm with he | hm
    · cases he
      exact ⟨definition, List.mem_cons_self, hstage⟩
    · obtain ⟨other, hmem, hread⟩ := ih hrest hm
      exact ⟨other, List.mem_cons_of_mem _ hmem, hread⟩

theorem ofName_name (category : Category) : Category.ofName category.name = .ok category := by
  cases category <;> rfl

theorem readCategories_cons {category : Category} {entries rest : List (String × Json)} :
    readCategories ((category.name, .object entries) :: rest) = (do
      let stages ← readStages category entries
      let others ← readCategories rest
      .ok ((category, stages) :: others)) := by
  simp only [readCategories, ofName_name, bind, Except.bind]

/-- Only categories are read, and only from objects. -/
theorem exists_of_readCategories_cons {name : String} {rest : List (String × Json)}
    {categories : List (Category × Stages)} {definition : Json}
    (h : readCategories ((name, definition) :: rest) = .ok categories) :
    ∃ category entries, name = Category.name category ∧ definition = .object entries := by
  rw [readCategories] at h
  cases hname : Category.ofName name with
  | error e => simp [hname, bind, Except.bind] at h
  | ok category =>
    cases definition with
    | object entries => exact ⟨category, entries, Category.ofName_eq_ok_iff.mp hname, rfl⟩
    | null | bool | number | string | array => simp [hname, bind, Except.bind] at h

/-- The stages of every category are read from a member of the definition. -/
theorem exists_readStages_of_mem {members : List (String × Json)}
    {categories : List (Category × Stages)} (h : readCategories members = .ok categories)
    {category : Category} {stages : Stages} (hm : (category, stages) ∈ categories) :
    ∃ name entries, (name, .object entries) ∈ members ∧
      readStages category entries = .ok stages := by
  induction members generalizing categories with
  | nil =>
    cases h
    cases hm
  | cons head rest ih =>
    obtain ⟨name, definition⟩ := head
    obtain ⟨found, entries, rfl, rfl⟩ := exists_of_readCategories_cons h
    rw [readCategories_cons] at h
    obtain ⟨read, hstages, h⟩ := bind_eq_ok_iff.mp h
    obtain ⟨others, hrest, h⟩ := bind_eq_ok_iff.mp h
    cases h
    rcases List.mem_cons.mp hm with he | hm
    · cases he
      exact ⟨_, entries, List.mem_cons_self, hstages⟩
    · obtain ⟨key, other, hmem, hread⟩ := ih hrest hm
      exact ⟨key, other, List.mem_cons_of_mem _ hmem, hread⟩

section Lookup

variable {definition : Json} {catalog : Catalog} {category : Category} {typeKey : String}
  (hd : definition.WellKeyed) (hcatalog : Catalog.ofJson definition = .ok catalog)
  (hstage : catalog.lookup category typeKey = .ok node)

include hd hcatalog hstage

/-- Every stage that is looked up was read from a well keyed part of the definition. -/
theorem exists_readStage_of_lookup :
    ∃ path part, Json.WellKeyed part ∧ readStage path part = .ok node := by
  cases definition with
  | object members =>
    rw [Catalog.ofJson] at hcatalog
    cases hcategories : readCategories members with
    | error e => simp [hcategories, Functor.map, Except.map] at hcatalog
    | ok categories =>
      simp only [hcategories, Functor.map, Except.map, Except.ok.injEq] at hcatalog
      subst hcatalog
      rw [Catalog.lookup, Catalog.stages] at hstage
      cases hfound : categories.lookup category with
      | none => simp [hfound] at hstage
      | some stages =>
        simp only [hfound, Option.getD_some] at hstage
        split at hstage
        · next other hlookup =>
          cases hstage
          have hin := Members.mem_of_lookup hfound
          obtain ⟨name, entries, hmem, hstages⟩ := exists_readStages_of_mem hcategories hin
          obtain ⟨part, hpart, hread⟩ :=
            exists_readStage_of_mem hstages (Members.mem_of_lookup hlookup)
          cases hd with
          | object _ hmembers =>
            cases hmembers name _ hmem with
            | object _ hentries => exact ⟨_, part, hentries typeKey part hpart, hread⟩
        · cases hstage
  | null | bool | number | string | array => cases hcatalog

/-- Every stage of an accepted catalog is well formed. -/
theorem wellFormed_of_lookup : node.WellFormed := by
  obtain ⟨path, part, hpart, hread⟩ := exists_readStage_of_lookup hd hcatalog hstage
  exact Schema.wellFormed_of_ofJson hpart (readStage_eq_ok hread).1

/-- Every default in a stage of an accepted catalog passes its own node, looked at on
its own under the default limits. -/
theorem violations_default_of_lookup {inner : Schema} (hc : node.Contains inner) {v : Json}
    (hv : inner.header.default = some v) : (inner.examine {} 0 v).violations = [] := by
  obtain ⟨path, part, hpart, hread⟩ := exists_readStage_of_lookup hd hcatalog hstage
  have hnode := wellFormed_of_lookup hd hcatalog hstage
  have hnull := ((hnode.of_contains hc).header v hv).2
  have hclean := Schema.violations_default_of_contains hc (readStage_eq_ok hread).2 hv
  rwa [Schema.validate_of_not_null hnull] at hclean

end Lookup

end Catalog

/-- The definition of a catalog with one stage. -/
def retryCatalogDefinition : Json :=
  .object [("source", .object [("retry", retryDefinition)])]

/-- The catalog that `retryCatalogDefinition` is read as. -/
def retryCatalog : Catalog := ⟨[(.source, [("retry", retrySchema)])]⟩

theorem ofJson_retryCatalogDefinition :
    Catalog.ofJson retryCatalogDefinition = .ok retryCatalog := by
  have hkind : ¬ retrySchema.kind ≠ .object := by decide
  have hfaulty : retrySchema.faultyDefault? "source.retry" = none := by decide +kernel
  have hstage : Catalog.readStage "source.retry" retryDefinition = .ok retrySchema := by
    simp only [Catalog.readStage, ofJson_retryDefinition, if_neg hkind, hfaulty]
  have hstages : Catalog.readStages .source [("retry", retryDefinition)] =
      .ok [("retry", retrySchema)] := by
    have hpath : Category.source.name ++ "." ++ "retry" = "source.retry" := by decide
    rw [Catalog.readStages, hpath, hstage]
    rfl
  have hcategory : Category.ofName "source" = .ok .source := rfl
  simp only [retryCatalogDefinition, Catalog.ofJson, Catalog.readCategories, hcategory, hstages,
    bind, Except.bind]
  rfl

theorem wellKeyed_retryCatalogDefinition : retryCatalogDefinition.WellKeyed := by decide

end PipelineConfig
