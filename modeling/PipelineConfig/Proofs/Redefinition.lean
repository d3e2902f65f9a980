import PipelineConfig.Proofs.Catalogs
import PipelineConfig.Proofs.Rendering

/-!
# Catalogs are read back as they were

A catalog describes each of its stages by a definition. The definitions of all stages,
ordered by category and stage type, make the definition of a catalog again. It is read
as a catalog with the same stage types, and with the same schema for every stage: no
default becomes faulty by being written, since none depends on the path to it.
-/

namespace PipelineConfig

namespace Schema

variable {node : Schema}

/-- A schema that was read is read again from what it is written as, under any path. -/
theorem ofJson_toJson_of_ofJson {path : String} {definition : Json} (hd : definition.WellKeyed)
    (hn : ofJson path definition = .ok node) (other : String) :
    ofJson other node.toJson = .ok node :=
  ofJson_toJson (wellFormed_of_ofJson hd hn) (declaresFields_of_ofJson hn) other

end Schema

namespace Catalog

variable {catalog : Catalog} {category : Category} {node : Schema}

/-- The stages of a category with their definitions, in the order of their types. -/
def described (catalog : Catalog) (category : Category) : List (String × Json) :=
  (catalog.typeKeys category).filterMap fun typeKey =>
    (catalog.describe category typeKey).toOption.map fun v => (typeKey, v)

/-- The definition that all stages of a catalog make, by category and stage type. -/
def definition (catalog : Catalog) : Json :=
  .object ((Category.all.filter fun category => !(catalog.typeKeys category).isEmpty).map
    fun category => (category.name, .object (catalog.described category)))

/-- The stages of a category in the order of their types. -/
def sorted (catalog : Catalog) (category : Category) : Stages :=
  (catalog.typeKeys category).filterMap fun typeKey =>
    ((catalog.stages category).lookup typeKey).map fun node => (typeKey, node)

/-- A catalog with the stages of each category in the order of their types. -/
def inOrder (catalog : Catalog) : Catalog :=
  ⟨(Category.all.filter fun category => !(catalog.typeKeys category).isEmpty).map
    fun category => (category, catalog.sorted category)⟩

theorem mem_typeKeys {typeKey : String} :
    typeKey ∈ catalog.typeKeys category ↔ typeKey ∈ (catalog.stages category).map Prod.fst :=
  List.mem_mergeSort

theorem lookup_eq_ok_iff {typeKey : String} :
    catalog.lookup category typeKey = .ok node ↔
      (catalog.stages category).lookup typeKey = some node := by
  rw [lookup]
  cases (catalog.stages category).lookup typeKey <;> simp

theorem described_eq :
    catalog.described category = (catalog.sorted category).map fun p => (p.1, p.2.toJson) := by
  rw [described, sorted, List.map_filterMap]
  refine List.filterMap_congr fun typeKey _ => ?_
  rw [describe, lookup]
  cases (catalog.stages category).lookup typeKey <;> rfl

theorem lookup_sorted (typeKey : String) :
    (catalog.sorted category).lookup typeKey = (catalog.stages category).lookup typeKey :=
  Members.lookup_filterMap fun _ hv =>
    mem_typeKeys.mpr (Members.mem_keys (Members.mem_of_lookup hv))

theorem keys_sorted : (catalog.sorted category).map Prod.fst = catalog.typeKeys category := by
  refine Members.keys_filterMap fun typeKey hm => ?_
  obtain ⟨node, hin⟩ := Members.exists_of_mem_keys (mem_typeKeys.mp hm)
  exact Option.ne_none_iff_exists'.mp fun hnone =>
    Members.lookup_eq_none_iff.mp hnone (Members.mem_keys hin)

/-- A category without stages is not listed, which is no different. -/
theorem stages_inOrder : catalog.inOrder.stages category = catalog.sorted category := by
  rw [stages, inOrder]
  cases hkeys : catalog.typeKeys category with
  | nil =>
    have hnone : sorted catalog category = [] := by rw [sorted, hkeys, List.filterMap_nil]
    have habsent : ((Category.all.filter fun category =>
        !(catalog.typeKeys category).isEmpty).map fun category =>
          (category, catalog.sorted category)).lookup category = none := by
      refine List.lookup_eq_none_iff.mpr fun p hp => ?_
      obtain ⟨other, hother, rfl⟩ := List.mem_map.mp hp
      refine bne_iff_ne.mpr fun (he : category = other) => ?_
      have hsome := (List.mem_filter.mp hother).2
      rw [← he, hkeys] at hsome
      cases hsome
    rw [habsent, hnone]
    rfl
  | cons typeKey rest =>
    have hlisted : category ∈ Category.all.filter fun category =>
        !(catalog.typeKeys category).isEmpty := by
      refine List.mem_filter.mpr ⟨by cases category <;> decide, ?_⟩
      rw [hkeys]
      rfl
    rw [List.lookup_graph _ hlisted]
    rfl

theorem lookup_inOrder (typeKey : String) :
    catalog.inOrder.lookup category typeKey = catalog.lookup category typeKey := by
  rw [lookup, lookup, stages_inOrder, lookup_sorted]

theorem sorted_typeKeys :
    (catalog.typeKeys category).Pairwise fun a b => decide (a ≤ b) = true :=
  pairwise_mergeSort_text (fun typeKey => typeKey) _

/-- Sorting stage types that are sorted changes nothing. -/
theorem typeKeys_inOrder : catalog.inOrder.typeKeys category = catalog.typeKeys category := by
  rw [typeKeys, stages_inOrder, keys_sorted]
  exact List.mergeSort_of_pairwise sorted_typeKeys

theorem readStage_toJson {path : String} {part : Json} (hd : part.WellKeyed)
    (h : readStage path part = .ok node) (other : String) :
    readStage other node.toJson = .ok node := by
  obtain ⟨hread, hkind, hfaulty⟩ := readStage_eq_ok_iff.mp h
  refine readStage_eq_ok_iff.mpr ⟨Schema.ofJson_toJson_of_ofJson hd hread other, hkind, ?_⟩
  exact Schema.faultyDefault?_eq_none
    (fun inner hc v hv => Schema.violations_default_of_contains hc hfaulty hv) other

theorem readStages_toJson {stages : Stages}
    (h : ∀ typeKey node, (typeKey, node) ∈ stages → ∀ path,
      readStage path node.toJson = .ok node) :
    readStages category (stages.map fun p => (p.1, p.2.toJson)) = .ok stages := by
  induction stages with
  | nil => rfl
  | cons head rest ih =>
    obtain ⟨typeKey, node⟩ := head
    have hrest := ih fun key child hm => h key child (List.mem_cons_of_mem _ hm)
    rw [List.map_cons, readStages, h typeKey node List.mem_cons_self]
    simp only [hrest, bind, Except.bind]

theorem readCategories_of_readStages {categories : List Category}
    {entries : Category → List (String × Json)} {stages : Category → Stages}
    (h : ∀ category ∈ categories, readStages category (entries category) = .ok (stages category)) :
    readCategories (categories.map fun category => (category.name, .object (entries category))) =
      .ok (categories.map fun category => (category, stages category)) := by
  induction categories with
  | nil => rfl
  | cons category rest ih =>
    have hrest := ih fun other hm => h other (List.mem_cons_of_mem _ hm)
    rw [List.map_cons, readCategories, ofName_name, hrest]
    simp only [h category List.mem_cons_self, bind, Except.bind, List.map_cons]

/-- The definition of a catalog that was read is read as the catalog in order. -/
theorem ofJson_definition {source : Json} (hd : source.WellKeyed)
    (hcatalog : Catalog.ofJson source = .ok catalog) :
    Catalog.ofJson catalog.definition = .ok catalog.inOrder := by
  have hstages : ∀ category, readStages category (catalog.described category) =
      .ok (catalog.sorted category) := by
    intro category
    rw [described_eq]
    refine readStages_toJson fun typeKey node hm path => ?_
    obtain ⟨key, -, hvalue⟩ := List.mem_filterMap.mp hm
    obtain ⟨found, hfound, he⟩ := Option.map_eq_some_iff.mp hvalue
    cases he
    obtain ⟨_, part, hpart, hread⟩ :=
      exists_readStage_of_lookup hd hcatalog (lookup_eq_ok_iff.mpr hfound)
    exact readStage_toJson hpart hread path
  rw [definition, Catalog.ofJson, readCategories_of_readStages fun category _ => hstages category]
  rfl

/-- Nothing is lost when a schema is written, and so nothing is lost when a catalog is:
what is written is read again as it was. -/
theorem read_as_written :
    (∀ path source node, source.WellKeyed → Schema.ofJson path source = .ok node →
      ∀ other, Schema.ofJson other node.toJson = .ok node) ∧
    ∀ source catalog, source.WellKeyed → Catalog.ofJson source = .ok catalog →
      ∃ again, Catalog.ofJson catalog.definition = .ok again ∧
        ∀ category, again.typeKeys category = catalog.typeKeys category ∧
          ∀ typeKey, again.lookup category typeKey = catalog.lookup category typeKey := by
  constructor
  · intro path source node hd hn other
    exact Schema.ofJson_toJson_of_ofJson hd hn other
  · intro source catalog hd hcatalog
    refine ⟨catalog.inOrder, ofJson_definition hd hcatalog, fun category => ⟨typeKeys_inOrder, ?_⟩⟩
    exact fun typeKey => lookup_inOrder typeKey

/-- The schema with nested defaults is read again under another path, and so is the
catalog with it. -/
theorem read_as_written_retry :
    Schema.ofJson "sink.retry" retrySchema.toJson = .ok retrySchema ∧
      ∃ again, Catalog.ofJson retryCatalog.definition = .ok again ∧
        again.typeKeys .source = ["retry"] ∧ again.lookup .source "retry" = .ok retrySchema := by
  obtain ⟨again, hread, hsame⟩ := read_as_written.2 retryCatalogDefinition retryCatalog
    wellKeyed_retryCatalogDefinition ofJson_retryCatalogDefinition
  obtain ⟨hkeys, hlookup⟩ := hsame .source
  have htypes : retryCatalog.typeKeys .source = ["retry"] := List.mergeSort_singleton "retry"
  refine ⟨read_as_written.1 "retry" retryDefinition retrySchema wellKeyed_retryDefinition
    (ofJson_retryDefinition "retry") "sink.retry", again, hread, hkeys.trans htypes, ?_⟩
  exact (hlookup "retry").trans rfl

end Catalog

end PipelineConfig
