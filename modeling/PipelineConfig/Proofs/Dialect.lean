import PipelineConfig.Proofs.Attributes
import PipelineConfig.Proofs.Catalogs

/-!
# The dialect of schemas

A definition is made of node definitions: the one it is itself, and those that it writes
for the elements of arrays and for the fields of objects. The main statement is that a
definition is read exactly if each of these is sound, and that otherwise the first that is
not, in the order of the document, is blamed under the names that lead to it.
-/

namespace PipelineConfig

namespace Json

mutual

/-- The node definitions that a definition is made of, each under the names that lead to
it, in the order of the document. -/
def definitions (path : String) : Json → List (String × Json)
  | .object members => (path, .object members) :: definitionsBelow path members
  | v => [(path, v)]

/-- The node definitions below a node with these attributes. -/
def definitionsBelow (path : String) : List (String × Json) → List (String × Json)
  | [] => []
  | (name, v) :: rest =>
    (if name = Attribute.items.name then
      if v.isNull then [] else definitions (path ++ "[]") v
    else if name = Attribute.properties.name then definitionsOfProperties path v
    else []) ++ definitionsBelow path rest

/-- The node definitions of fields, if it is fields that are declared. -/
def definitionsOfProperties (path : String) : Json → List (String × Json)
  | .object fields => definitionsOfFields path fields
  | _ => []

/-- The node definitions of fields one after another. -/
def definitionsOfFields (path : String) : List (String × Json) → List (String × Json)
  | [] => []
  | (name, v) :: rest => definitions (path ++ "." ++ name) v ++ definitionsOfFields path rest

end

variable {path : String} {members : List (String × Json)}

theorem definitionsBelow_cons (name : String) (v : Json) :
    definitionsBelow path ((name, v) :: members) =
      (if name = Attribute.items.name then
        if v.isNull then [] else definitions (path ++ "[]") v
      else if name = Attribute.properties.name then definitionsOfProperties path v
      else []) ++ definitionsBelow path members := rfl

theorem definitionsBelow_nil : definitionsBelow path [] = [] := rfl

/-- Every attribute on its own tells what it defines below the node. -/
theorem definitionsBelow_eq_flatMap :
    definitionsBelow path members = members.flatMap fun m => definitionsBelow path [m] := by
  induction members with
  | nil => rfl
  | cons head rest ih =>
    obtain ⟨name, v⟩ := head
    rw [List.flatMap_cons, ← ih, definitionsBelow_cons, definitionsBelow_cons,
      definitionsBelow_nil, List.append_nil]

theorem definitionsBelow_items {v : Json} (hv : v.isNull = false) :
    definitionsBelow path [(Attribute.items.name, v)] = definitions (path ++ "[]") v := by
  rw [definitionsBelow_cons, if_pos rfl, hv, definitionsBelow_nil, List.append_nil]
  rfl

theorem definitionsBelow_properties {fields : List (String × Json)} :
    definitionsBelow path [(Attribute.properties.name, .object fields)] =
      definitionsOfFields path fields := by
  rw [definitionsBelow_cons, if_neg (by decide), if_pos rfl, definitionsBelow_nil, List.append_nil]
  rfl

/-- Attributes that are left out define nothing, and neither do all others. -/
theorem definitionsBelow_eq_nil {name : String} {v : Json}
    (hitems : name = Attribute.items.name → v.isNull = true)
    (hproperties : name = Attribute.properties.name → v.isNull = true) :
    definitionsBelow path [(name, v)] = [] := by
  rw [definitionsBelow_cons, definitionsBelow_nil, List.append_nil]
  by_cases hi : name = Attribute.items.name
  · rw [if_pos hi, if_pos (hitems hi)]
  · rw [if_neg hi]
    by_cases hp : name = Attribute.properties.name
    · rw [if_pos hp]
      cases v with
      | object fields => cases hproperties hp
      | null | bool | number | string | array => rfl
    · rw [if_neg hp]

/-- A node that describes neither elements nor fields has no definitions below it. -/
theorem definitionsBelow_of_leaf (hitems : ¬ Given members .items)
    (hproperties : ¬ Given members .properties) : definitionsBelow path members = [] := by
  rw [definitionsBelow_eq_flatMap]
  refine List.flatMap_eq_nil_iff.mpr fun m hm => definitionsBelow_eq_nil ?_ ?_
  · intro hname
    exact eq_true_of_ne_false fun hv => hitems ⟨m.2, hname ▸ hm, hv⟩
  · intro hname
    exact eq_true_of_ne_false fun hv => hproperties ⟨m.2, hname ▸ hm, hv⟩

section Below

variable (hkeys : (members.map Prod.fst).Nodup)

include hkeys

/-- Below an array that declares no fields is the node of its elements. -/
theorem definitionsBelow_of_array {items : Json} (hm : (Attribute.items.name, items) ∈ members)
    (hitems : items.isNull = false) (hproperties : ¬ Given members .properties) :
    definitionsBelow path members = definitions (path ++ "[]") items := by
  rw [definitionsBelow_eq_flatMap, ← definitionsBelow_items hitems]
  refine Members.flatMap_of_mem hkeys hm fun name v hv hname => ?_
  refine definitionsBelow_eq_nil (fun he => absurd he hname) fun he => ?_
  exact eq_true_of_ne_false fun hnull => hproperties ⟨v, he ▸ hv, hnull⟩

/-- Below an object that describes no elements are the nodes of its fields. -/
theorem definitionsBelow_of_object {fields : List (String × Json)}
    (hm : (Attribute.properties.name, .object fields) ∈ members)
    (hitems : ¬ Given members .items) :
    definitionsBelow path members = definitionsOfFields path fields := by
  rw [definitionsBelow_eq_flatMap, ← definitionsBelow_properties]
  refine Members.flatMap_of_mem hkeys hm fun name v hv hname => ?_
  refine definitionsBelow_eq_nil (fun he => ?_) fun he => absurd he hname
  exact eq_true_of_ne_false fun hnull => hitems ⟨v, he ▸ hv, hnull⟩

end Below

end Json

/-- The first of the nodes that is not sound stands under these names. -/
def FirstUnsound (nodes : List (String × Json)) (path : String) : Prop :=
  ∃ before node after, nodes = before ++ (path, node) :: after ∧
    (∀ earlier ∈ before, Json.DefinesNode earlier.2) ∧ ¬ node.DefinesNode

namespace FirstUnsound

variable {nodes others : List (String × Json)} {path : String}

theorem head {node : Json} (h : ¬ node.DefinesNode) : FirstUnsound ((path, node) :: others) path :=
  ⟨[], node, others, rfl, by simp, h⟩

theorem append_left (h : FirstUnsound nodes path) : FirstUnsound (nodes ++ others) path := by
  obtain ⟨before, node, after, rfl, hbefore, hnode⟩ := h
  refine ⟨before, node, after ++ others, ?_, hbefore, hnode⟩
  rw [List.append_assoc, List.cons_append]

theorem append_right (hnodes : ∀ node ∈ nodes, Json.DefinesNode node.2)
    (h : FirstUnsound others path) : FirstUnsound (nodes ++ others) path := by
  obtain ⟨before, node, after, rfl, hbefore, hnode⟩ := h
  refine ⟨nodes ++ before, node, after, (List.append_assoc ..).symm, fun earlier hm => ?_, hnode⟩
  rcases List.mem_append.mp hm with hm | hm
  · exact hnodes earlier hm
  · exact hbefore earlier hm

theorem not_forall (h : FirstUnsound nodes path) : ¬ ∀ node ∈ nodes, Json.DefinesNode node.2 := by
  obtain ⟨before, node, after, rfl, -, hnode⟩ := h
  exact fun hall => hnode (hall (path, node) (List.mem_append_right _ List.mem_cons_self))

end FirstUnsound

/-- What a reading must tell of the nodes that it went through: it succeeds on sound ones,
and blames the first that is not. -/
def Judges (nodes : List (String × Json)) {α : Type} : Except FlawedNode α → Prop
  | .ok _ => ∀ node ∈ nodes, Json.DefinesNode node.2
  | .error flawed => FirstUnsound nodes flawed.path

namespace Judges

variable {α β : Type} {nodes others : List (String × Json)} {result : Except FlawedNode α}

theorem nil {a : α} : Judges [] (.ok a) := by
  intro node hm
  cases hm

theorem map {f : α → β} (h : Judges nodes result) : Judges nodes (result.map f) := by
  cases result with
  | error flawed => exact h
  | ok a => exact h

/-- What is read one after another is judged one after another, up to the first flaw. -/
theorem append {f : α → Except FlawedNode β} (h : Judges nodes result)
    (hf : ∀ a, Judges others (f a)) : Judges (nodes ++ others) (result >>= f) := by
  cases result with
  | error flawed => exact FirstUnsound.append_left h
  | ok a =>
    change Judges (nodes ++ others) (f a)
    have hrest := hf a
    cases hb : f a with
    | error flawed =>
      rw [hb] at hrest
      exact FirstUnsound.append_right h hrest
    | ok b =>
      rw [hb] at hrest
      exact List.forall_mem_append.mpr ⟨h, hrest⟩

/-- A sound node leaves the judgement to those after it. -/
theorem cons {path : String} {node : Json} (hnode : node.DefinesNode) (h : Judges nodes result) :
    Judges ((path, node) :: nodes) result := by
  have hfirst : Judges [(path, node)] (.ok () : Except FlawedNode Unit) :=
    List.forall_mem_singleton.mpr hnode
  exact hfirst.append fun _ => h

end Judges

namespace Schema

mutual

/-- Reading a definition judges the node definitions that it is made of. -/
theorem judges_ofJson {path : String} {definition : Json} (hd : definition.WellKeyed)
    (hplain : ∀ node ∈ definition.definitions path, node.2.PlainNode) :
    Judges (definition.definitions path) (ofJson path definition) := by
  have htop : definition.PlainNode := by
    refine hplain (path, definition) ?_
    cases definition <;> exact List.mem_cons_self
  obtain ⟨members, rfl, htype⟩ := htop
  have hkeys : (members.map Prod.fst).Nodup := by
    cases hd with
    | object hkeys _ => exact hkeys
  have hbelow : ∀ node ∈ Json.definitionsBelow path members, node.2.PlainNode :=
    fun node hm => hplain node (List.mem_cons_of_mem _ hm)
  rw [Json.definitions]
  cases hread : Declaration.ofJson (.object members) with
  | error flaw =>
    rw [ofJson_of_flawed hread]
    refine FirstUnsound.head fun ⟨others, kind, he, hnode⟩ => ?_
    cases he
    obtain ⟨d, hok⟩ := Declaration.exists_ofJson hkeys htype hnode
    rw [hread] at hok
    cases hok
  | ok d =>
    have hnode : IsNode members d.outline.kind := Declaration.isNode_of_ofJson hkeys htype hread
    refine Judges.cons ⟨members, _, rfl, hnode⟩ ?_
    -- The node itself is sound, so that what is left is judged by what is read below it.
    obtain ⟨header, outline⟩ := d
    cases outline with
    | leaf type allowed =>
      have hitems : ¬ Given members .items := fun hg => by cases type <;> cases hnode.items.mp hg
      have hproperties : ¬ Given members .properties :=
        fun hg => by cases type <;> cases hnode.properties.mp hg
      rw [ofJson_of_leaf hread, Json.definitionsBelow_of_leaf hitems hproperties]
      exact Judges.nil
    | openObject =>
      have hitems : ¬ Given members .items := fun hg => by cases hnode.items.mp hg
      have hm := Declaration.mem_properties_of_openObject hkeys hread rfl
      rw [ofJson_of_openObject hread, Json.definitionsBelow_of_object hkeys hm hitems]
      exact Judges.nil
    | array unique items =>
      have hsize := Declaration.sizeOf_items hread
      have hproperties : ¬ Given members .properties := fun hg => by cases hnode.properties.mp hg
      obtain ⟨hm, hnull⟩ := Declaration.mem_items_of_ofJson hkeys hread rfl
      rw [Json.definitionsBelow_of_array hkeys hm hnull hproperties] at hbelow ⊢
      rw [ofJson_eq_map_array hread]
      exact (judges_ofJson (Declaration.wellKeyed_items hd hread) hbelow).map
    | object properties =>
      have hsize := Declaration.sizeOf_properties hread
      have hitems : ¬ Given members .items := fun hg => by cases hnode.items.mp hg
      have hm := Declaration.mem_properties_of_ofJson hkeys hread rfl
      rw [Json.definitionsBelow_of_object hkeys hm hitems] at hbelow ⊢
      rw [ofJson_eq_map_object hread]
      cases Declaration.wellKeyed_properties hd hread with
      | object _ hvalues => exact (judges_ofMembers hvalues hbelow).map
termination_by sizeOf definition

/-- Reading fields one after another judges all that they are made of. -/
theorem judges_ofMembers {path : String} {members : List (String × Json)}
    (hd : ∀ name v, (name, v) ∈ members → v.WellKeyed)
    (hplain : ∀ node ∈ Json.definitionsOfFields path members, node.2.PlainNode) :
    Judges (Json.definitionsOfFields path members) (ofMembers path members) := by
  match members with
  | [] =>
    rw [ofMembers_nil]
    exact Judges.nil
  | (name, definition) :: rest =>
    rw [Json.definitionsOfFields] at hplain ⊢
    obtain ⟨hfirst, hrest⟩ := List.forall_mem_append.mp hplain
    have hchild := judges_ofJson (hd name definition List.mem_cons_self) hfirst
    have hothers := judges_ofMembers (fun key v hm => hd key v (List.mem_cons_of_mem _ hm)) hrest
    rw [ofMembers_cons_eq]
    refine hchild.append fun child => ?_
    have hmap : (ofMembers path rest >>= fun others => pure ((name, child) :: others)) =
        (ofMembers path rest).map ((name, child) :: ·) := by
      cases ofMembers path rest <;> rfl
    rw [hmap]
    exact hothers.map
termination_by sizeOf members

end

/-- A definition is read exactly if every node definition in it is sound. Otherwise the
first that is not is blamed, by the path to it, in the catalog as well. -/
theorem read_or_blamed (path : String) (definition : Json) (hd : definition.WellKeyed)
    (hplain : ∀ node ∈ definition.definitions path, node.2.PlainNode) :
    ((∃ node, ofJson path definition = .ok node) ↔
      ∀ node ∈ definition.definitions path, node.2.DefinesNode) ∧
    ((¬ ∀ node ∈ definition.definitions path, node.2.DefinesNode) →
      ∃ flawed, ofJson path definition = .error flawed ∧
        FirstUnsound (definition.definitions path) flawed.path ∧
        Catalog.readStage path definition =
          .error (.malformed flawed.path flawed.flaw.message)) := by
  have hjudged := judges_ofJson hd hplain
  cases hread : ofJson path definition with
  | ok node =>
    rw [hread] at hjudged
    exact ⟨⟨fun _ => hjudged, fun _ => ⟨node, rfl⟩⟩, fun hnot => absurd hjudged hnot⟩
  | error flawed =>
    rw [hread] at hjudged
    refine ⟨⟨nofun, fun hall => absurd hall hjudged.not_forall⟩, fun _ => ?_⟩
    exact ⟨flawed, rfl, hjudged, by rw [Catalog.readStage, hread]⟩

/-- A definition of lists of lists that leaves out what the inner lists are made of. -/
def listsDefinition : Json :=
  .object [("type", .string "array"), ("items", .object [("type", .string "array")])]

theorem ofJson_listsDefinition :
    ofJson "lists" listsDefinition = .error ⟨"lists[]", .itemsMissing⟩ := by
  rw [ofJson_eq_map_array rfl, ofJson_of_flawed rfl]
  rfl

/-- The complete definition is sound throughout, and the inner lists are blamed for what
they leave out. -/
theorem read_or_blamed_lists :
    (∀ node ∈ retryDefinition.definitions "retry", node.2.DefinesNode) ∧
      FirstUnsound (listsDefinition.definitions "lists") "lists[]" ∧
      Catalog.readStage "lists" listsDefinition =
        .error (.malformed "lists[]" "array node must declare 'items'") := by
  have hretry : ∀ node ∈ retryDefinition.definitions "retry", node.2.PlainNode := by
    simp [retryDefinition, Json.definitions, Json.definitionsBelow, Json.definitionsOfProperties,
      Json.definitionsOfFields, Json.PlainNode, Attribute.name]
  have hlists : ∀ node ∈ listsDefinition.definitions "lists", node.2.PlainNode := by
    simp [listsDefinition, Json.definitions, Json.definitionsBelow, Json.PlainNode, Attribute.name]
  refine ⟨(read_or_blamed "retry" retryDefinition wellKeyed_retryDefinition hretry).1.mp
    ⟨retrySchema, ofJson_retryDefinition "retry"⟩, ?_⟩
  obtain ⟨hread, hblamed⟩ := read_or_blamed "lists" listsDefinition (by decide) hlists
  rw [ofJson_listsDefinition] at hread hblamed
  obtain ⟨flawed, he, hfirst, hstage⟩ := hblamed fun hall => by
    obtain ⟨node, hok⟩ := hread.mpr hall
    cases hok
  cases he
  exact ⟨hfirst, hstage⟩

end Schema

end PipelineConfig
