import PipelineConfig.Proofs.Attributes
import PipelineConfig.Proofs.IntegerBounds
import PipelineConfig.Schema.Build

/-!
# Inverted bounds

Bounds are set in two ways. A builder is given two integers and compares them as they
are. The reader of a definition compares what is written for them after rounding to
binary64 numbers. What the builder takes is read as it is built. What it refuses is
refused by the reader too, unless the two integers fall together, which they never do
if one of them is below `2 ^ 53`.
-/

namespace PipelineConfig

/-- The leaf with other bounds, if it is numeric. -/
def Leaf.withBounds (bounds : Bounds) : Leaf → Leaf
  | integer _ => integer bounds
  | number _ => number bounds
  | type => type

/-- The node with other bounds, if it is a numeric leaf. -/
def Schema.withBounds (bounds : Bounds) : Schema → Schema
  | leaf header type allowed => leaf header (type.withBounds bounds) allowed
  | node => node

/-- The attribute sets a bound. -/
def Attribute.isBound (a : Attribute) : Bool := a = minimum ∨ a = maximum

/-- The attributes of a node without those that bound it. -/
def unbounded (members : List (String × Json)) : List (String × Json) :=
  members.filter fun m => m.1 ≠ Attribute.minimum.name ∧ m.1 ≠ Attribute.maximum.name

namespace Entries

variable {entries bare : Entries}

/-- The two say the same about everything but the bounds. -/
def AgreeButBounds (entries bare : Entries) : Prop :=
  ∀ a : Attribute, a.isBound = false → entries.lookup a = bare.lookup a

variable (h : entries.AgreeButBounds bare)

include h

theorem get?_of_agree {a : Attribute} (ha : a.isBound = false) :
    entries.get? a = bare.get? a := by
  rw [get?, get?, h a ha]

theorem header_of_agree : entries.header = bare.header := by
  have hget : ∀ a : Attribute, a.isBound = false → entries.get? a = bare.get? a :=
    fun a ha => get?_of_agree h ha
  simp only [header, string?, bool?, hget .title rfl, hget .description rfl,
    hget .direction rfl, hget .default rfl, hget .required rfl]

theorem kind?_of_agree : entries.kind? = bare.kind? := by
  rw [kind?, kind?, h .type rfl]

/-- A leaf is outlined under other bounds, unless they are inverted. -/
theorem leafOutline_of_agree {type other : Leaf} {o : Outline}
    (ho : bare.leafOutline type = .ok o) :
    ∃ allowed, o = .leaf type allowed ∧ entries.leafOutline other =
      if entries.bounds.inverted then .error .boundsInverted else .ok (.leaf other allowed) := by
  have hget : entries.get? .enum = bare.get? .enum := get?_of_agree h rfl
  have henum : entries.array? .enum = bare.array? .enum := by rw [array?, array?, hget]
  unfold leafOutline at ho ⊢
  rw [henum]
  split at ho
  · cases ho
  · split at ho
    · cases ho
    · cases ho
      exact ⟨_, rfl, rfl⟩

/-- So is a numeric node. -/
theorem outline_of_agree {kind : Kind} {o : Outline} (hk : kind.isNumeric = true)
    (ho : bare.outline kind = .ok o) :
    ∃ type allowed, o = .leaf type allowed ∧ entries.outline kind =
      if entries.bounds.inverted then .error .boundsInverted
      else .ok (.leaf (type.withBounds entries.bounds) allowed) := by
  have hhas : ∀ a : Attribute, a.isBound = false → entries.has a = bare.has a :=
    fun a ha => congrArg Option.isSome (get?_of_agree h ha)
  have hbounded : ∀ given : Prop, ¬ (¬ kind.isNumeric = true ∧ given) :=
    fun _ hne => hne.1 hk
  unfold outline at ho ⊢
  rw [hhas .items rfl, hhas .uniqueItems rfl, hhas .properties rfl]
  split at ho
  · cases ho
  next hitems =>
    split at ho
    · cases ho
    next hproperties =>
      rw [if_neg (hbounded _)] at ho
      rw [if_neg hitems, if_neg hproperties, if_neg (hbounded _)]
      rcases Kind.isNumeric_iff.mp hk with rfl | rfl
      · obtain ⟨allowed, rfl, houtline⟩ := leafOutline_of_agree h ho
        exact ⟨_, allowed, rfl, houtline⟩
      · obtain ⟨allowed, rfl, houtline⟩ := leafOutline_of_agree h ho
        exact ⟨_, allowed, rfl, houtline⟩

end Entries

section Bounded

variable {members : List (String × Json)} {least greatest : Int}

theorem Bounds.inverted_ofIntegers : (ofIntegers (some least) (some greatest)).inverted =
    decide ((Number.integer greatest).order < (Number.integer least).order) := rfl

theorem mem_unbounded {name : String} {v : Json} :
    (name, v) ∈ unbounded members ↔ (name, v) ∈ members ∧
      name ≠ Attribute.minimum.name ∧ name ≠ Attribute.maximum.name := by
  rw [unbounded, List.mem_filter, decide_eq_true_iff]

/-- The members are entries, as the unbounded ones are, and agree with them but for the
bounds. -/
theorem Entries.exists_of_unbounded {bare : Entries}
    (hbare : Entries.ofMembers (unbounded members) = .ok bare)
    (hnumbers : ∀ name v, (name, v) ∈ members →
      name = Attribute.minimum.name ∨ name = Attribute.maximum.name → ∃ n, v = .number n) :
    ∃ entries, Entries.ofMembers members = .ok entries ∧ entries.AgreeButBounds bare := by
  obtain ⟨hnamed, hcheck⟩ := Entries.ofMembers_eq_ok_iff.mp hbare
  have hreads : ∀ name v, (name, v) ∈ members →
      ∃ a : Attribute, a.name = name ∧ a.check v = .ok () := by
    intro name v hm
    by_cases hbound : name = Attribute.minimum.name ∨ name = Attribute.maximum.name
    · obtain ⟨n, rfl⟩ := hnumbers name v hm hbound
      rcases hbound with rfl | rfl
      · exact ⟨.minimum, rfl, rfl⟩
      · exact ⟨.maximum, rfl, rfl⟩
    · have hkept := mem_unbounded.mpr ⟨hm, not_or.mp hbound⟩
      rw [hnamed] at hkept
      obtain ⟨⟨a, w⟩, hin, he⟩ := List.mem_map.mp hkept
      cases he
      exact ⟨a, rfl, hcheck a w hin⟩
  obtain ⟨entries, hread⟩ := Entries.exists_ofMembers hreads
  refine ⟨entries, hread, fun a ha => ?_⟩
  have hother : a ≠ .minimum ∧ a ≠ .maximum := not_or.mp (of_decide_eq_false ha)
  have hkept : a.name ≠ Attribute.minimum.name ∧ a.name ≠ Attribute.maximum.name :=
    ⟨fun he => hother.1 (Attribute.name_injective he),
      fun he => hother.2 (Attribute.name_injective he)⟩
  rw [Entries.lookup_named (Entries.ofMembers_eq_ok_iff.mp hread).1, Entries.lookup_named hnamed,
    unbounded, Members.lookup_filter fun _ => decide_eq_true hkept]

variable (hkeys : (members.map Prod.fst).Nodup)
  (hmin : (Attribute.minimum.name, .number (.integer least)) ∈ members)
  (hmax : (Attribute.maximum.name, .number (.integer greatest)) ∈ members)

include hkeys hmin hmax

/-- A numeric node is read with its bounds, unless they compare as inverted. -/
theorem Declaration.ofJson_of_unbounded {header : Header} {type : Leaf} {allowed : List Json}
    (hbare : Declaration.ofJson (.object (unbounded members)) = .ok ⟨header, .leaf type allowed⟩)
    (hk : type.kind.isNumeric = true) :
    Declaration.ofJson (.object members) =
      if (Number.integer greatest).order < (Number.integer least).order then
        .error .boundsInverted
      else
        .ok ⟨header, .leaf (type.withBounds (.ofIntegers (some least) (some greatest)))
          allowed⟩ := by
  obtain ⟨bare, kind, hentries, hkind, houtline, hheader⟩ := ofJson_eq_ok_iff.mp hbare
  obtain ⟨hread, htype⟩ := Entries.ofJson_object_eq_ok_iff.mp hentries
  have hnumbers : ∀ name v, (name, v) ∈ members →
      name = Attribute.minimum.name ∨ name = Attribute.maximum.name → ∃ n, v = .number n := by
    rintro name v hm (rfl | rfl)
    · exact ⟨_, Members.eq_of_mem hkeys hm hmin⟩
    · exact ⟨_, Members.eq_of_mem hkeys hm hmax⟩
  obtain ⟨entries, hall, hagree⟩ := Entries.exists_of_unbounded hread hnumbers
  have hnamed := (Entries.ofMembers_eq_ok_iff.mp hall).1
  have hbounds : entries.bounds = .ofIntegers (some least) (some greatest) := by
    rw [Entries.bounds, (Entries.number?_eq_some_iff hkeys hnamed).mpr hmin,
      (Entries.number?_eq_some_iff hkeys hnamed).mpr hmax]
    rfl
  have hleaf : kind = type.kind := (Entries.kind_of_outline houtline).symm
  subst hleaf
  obtain ⟨type', allowed', he, hbounded⟩ := Entries.outline_of_agree hagree hk houtline
  cases he
  have hobject : Entries.ofJson (.object members) = .ok entries :=
    Entries.ofJson_object_eq_ok_iff.mpr ⟨hall, by rwa [hagree .type rfl]⟩
  have hsame : entries.kind? = some type.kind := (Entries.kind?_of_agree hagree).trans hkind
  have hsaid : entries.header = header := (Entries.header_of_agree hagree).trans hheader
  rw [hbounds, Bounds.inverted_ofIntegers] at hbounded
  rw [Declaration.ofJson, hobject]
  simp only [hsame, hsaid, hbounded, decide_eq_true_iff]
  by_cases hinverted : (Number.integer greatest).order < (Number.integer least).order
  · simp only [if_pos hinverted]
  · simp only [if_neg hinverted]

end Bounded

namespace Schema

variable {path : String} {members : List (String × Json)} {bare : Schema} {least greatest : Int}

theorem exists_leaf_of_numeric (hk : bare.kind.isNumeric = true) :
    ∃ header type allowed, bare = .leaf header type allowed ∧ type.kind.isNumeric = true := by
  cases bare with
  | leaf header type allowed => exact ⟨header, type, allowed, rfl, hk⟩
  | object | openObject | array => cases hk

/-- A builder takes bounds that are in order as they are. -/
theorem within_of_numeric (hk : bare.kind.isNumeric = true) :
    bare.within (some least) (some greatest) =
      if greatest < least then .error .boundsInverted
      else .ok (bare.withBounds (.ofIntegers (some least) (some greatest))) := by
  obtain ⟨header, type, allowed, rfl, hnumeric⟩ := exists_leaf_of_numeric hk
  cases type with
  | integer | number => simp only [within, decide_eq_true_iff]; rfl
  | string | boolean => cases hnumeric

/-- The reader takes bounds that compare as in order. -/
theorem ofJson_of_unbounded (hkeys : (members.map Prod.fst).Nodup)
    (hmin : (Attribute.minimum.name, .number (.integer least)) ∈ members)
    (hmax : (Attribute.maximum.name, .number (.integer greatest)) ∈ members)
    (hbare : ofJson path (.object (unbounded members)) = .ok bare)
    (hk : bare.kind.isNumeric = true) :
    ofJson path (.object members) =
      if (Number.integer greatest).order < (Number.integer least).order then
        .error ⟨path, .boundsInverted⟩
      else .ok (bare.withBounds (.ofIntegers (some least) (some greatest))) := by
  obtain ⟨header, type, allowed, rfl, hnumeric⟩ := exists_leaf_of_numeric hk
  obtain ⟨o, hdeclared, rfl⟩ := exists_outline_of_ofJson hbare
  have hread := Declaration.ofJson_of_unbounded hkeys hmin hmax hdeclared hnumeric
  by_cases hinverted : (Number.integer greatest).order < (Number.integer least).order
  · rw [if_pos hinverted] at hread ⊢
    exact ofJson_of_flawed hread
  · rw [if_neg hinverted] at hread ⊢
    exact ofJson_of_leaf hread

/-- A numeric node is built exactly if its bounds are in order, and is read exactly if they
are in order or fall together. What is built is read as the same node. If one of the
bounds is below `2 ^ 53`, then it is read only if they are in order. -/
theorem read_or_built_iff (hkeys : (members.map Prod.fst).Nodup)
    (hmin : (Attribute.minimum.name, .number (.integer least)) ∈ members)
    (hmax : (Attribute.maximum.name, .number (.integer greatest)) ∈ members)
    (hbare : ofJson path (.object (unbounded members)) = .ok bare)
    (hk : bare.kind.isNumeric = true) :
    let read := ofJson path (.object members)
    let built := bare.within (some least) (some greatest)
    ((∃ node, built = .ok node) ↔ least ≤ greatest) ∧
    ((∃ node, read = .ok node) ↔
      least ≤ greatest ∨ (Number.integer least).order = (Number.integer greatest).order) ∧
    (∀ node, built = .ok node → read = .ok node) ∧
    (least.natAbs < 2 ^ 53 ∨ greatest.natAbs < 2 ^ 53 →
      ((∃ node, read = .ok node) ↔ least ≤ greatest)) := by
  intro read built
  have hbuilt : built = if greatest < least then .error .boundsInverted
      else .ok (bare.withBounds (.ofIntegers (some least) (some greatest))) :=
    within_of_numeric hk
  have hread : read = if (Number.integer greatest).order < (Number.integer least).order then
      .error ⟨path, .boundsInverted⟩
      else .ok (bare.withBounds (.ofIntegers (some least) (some greatest))) :=
    ofJson_of_unbounded hkeys hmin hmax hbare hk
  have hreads : (∃ node, read = .ok node) ↔
      least ≤ greatest ∨ (Number.integer least).order = (Number.integer greatest).order := by
    rw [hread, exists_ok_ite_iff, Number.order_lt_iff, not_and_or, Int.not_lt, not_not, eq_comm]
  refine ⟨?_, hreads, ?_, ?_⟩
  · rw [hbuilt, exists_ok_ite_iff, Int.not_lt]
  · intro node hnode
    have hordered : ¬ greatest < least := exists_ok_ite_iff.mp ⟨node, hbuilt.symm.trans hnode⟩
    have hmono := Number.order_mono (Int.not_lt.mp hordered)
    rw [hbuilt, if_neg hordered] at hnode
    cases hnode
    rw [hread, if_neg (by omega)]
  · intro hsmall
    refine hreads.trans (or_iff_left_of_imp fun hsame => ?_)
    have happart : least ≠ greatest →
        (Number.integer least).order ≠ (Number.integer greatest).order := by
      intro hne
      rcases hsmall with hleast | hgreatest
      · exact Number.order_ne hne hleast
      · exact (Number.order_ne hne.symm hgreatest).symm
    have heq : least = greatest := not_not.mp fun hne => happart hne hsame
    omega

/-- A port is read and built with bounds that are in order. -/
theorem port_read_and_built :
    let members := [("type", Json.string "integer"), ("minimum", .number (.integer 1)),
      ("maximum", .number (.integer 65535)), ("required", .bool true)]
    (∃ node, anyInteger.asRequired.within (some 1) (some 65535) = .ok node) ∧
      ∃ node, ofJson "port" (.object members) = .ok node := by
  intro members
  have hkeys : (members.map Prod.fst).Nodup := by decide
  have hmin : (Attribute.minimum.name, Json.number (.integer 1)) ∈ members := by
    simp [members, Attribute.name]
  have hmax : (Attribute.maximum.name, Json.number (.integer 65535)) ∈ members := by
    simp [members, Attribute.name]
  have hbare : ofJson "port" (.object (unbounded members)) = .ok anyInteger.asRequired :=
    ofJson_of_leaf rfl
  have hport := read_or_built_iff hkeys hmin hmax hbare rfl
  exact ⟨hport.1.mpr (by decide), (hport.2.2.2 (.inl (by decide))).mpr (by decide)⟩

/-- A minimum of `2 ^ 53 + 1` falls together with a maximum of `2 ^ 53`. Such bounds are
read and cannot be built. -/
theorem inverted_bounds_read :
    let members := [("type", Json.string "integer"),
      ("minimum", .number (.integer 9007199254740993)),
      ("maximum", .number (.integer 9007199254740992))]
    (∃ node, ofJson "schema" (.object members) = .ok node) ∧
      ¬ ∃ node, anyInteger.within (some 9007199254740993) (some 9007199254740992) = .ok node := by
  intro members
  have hkeys : (members.map Prod.fst).Nodup := by decide
  have hmin : (Attribute.minimum.name, Json.number (.integer 9007199254740993)) ∈ members := by
    simp [members, Attribute.name]
  have hmax : (Attribute.maximum.name, Json.number (.integer 9007199254740992)) ∈ members := by
    simp [members, Attribute.name]
  have hbare : ofJson "schema" (.object (unbounded members)) = .ok anyInteger :=
    ofJson_of_leaf rfl
  have htogether : ¬ (Number.integer 9007199254740992).order <
      (Number.integer 9007199254740993).order := by decide +kernel
  rw [ofJson_of_unbounded hkeys hmin hmax hbare rfl, within_of_numeric rfl, exists_ok_ite_iff,
    exists_ok_ite_iff, not_not]
  exact ⟨htogether, by decide⟩

end Schema

end PipelineConfig
