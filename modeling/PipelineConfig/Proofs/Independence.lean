import PipelineConfig.Proofs.Removal
import PipelineConfig.Proofs.Walk

/-!
# Places that are looked at apart

An object with declared fields is looked at member by member, and an array whose
elements need not be distinct element by element. So along a path of such nodes nothing
that is found elsewhere depends on what lies at the end of the path: two configurations
that differ there alone get the same findings everywhere else, and are left as values
that differ there alone.
-/

namespace PipelineConfig

/-- The findings elsewhere: not at the path, and not below it. -/
def elsewhere {β : Type} (place : β → Path) (path : Path) (found : List β) : List β :=
  found.filter fun b => ¬ path <+: place b

section Elsewhere

variable {α β : Type} {place : β → Path} {path : Path} {step : Step}

theorem elsewhere_root (found : List β) : elsewhere place [] found = [] := by
  simp [elsewhere]

theorem elsewhere_append (found more : List β) :
    elsewhere place path (found ++ more) = elsewhere place path found ++ elsewhere place path more :=
  List.filter_append ..

theorem elsewhere_flatMap (l : List α) (found : α → List β) :
    elsewhere place path (l.flatMap found) = l.flatMap fun a => elsewhere place path (found a) :=
  List.filter_flatMap

variable (under : Step → β → β) (hunder : ∀ step b, place (under step b) = step :: place b)

include hunder

/-- Findings below one step agree elsewhere if they agree elsewhere as seen from there, or
altogether if the path takes another step. -/
theorem elsewhere_under {s : Step} {found others : List β}
    (hsame : s = step → elsewhere place path found = elsewhere place path others)
    (hother : s ≠ step → found = others) :
    elsewhere place (step :: path) (found.map (under s)) =
      elsewhere place (step :: path) (others.map (under s)) := by
  by_cases hs : s = step
  · subst hs
    have hbelow : ∀ l : List β, elsewhere place (s :: path) (l.map (under s)) =
        (elsewhere place path l).map (under s) := by
      intro l
      rw [elsewhere, List.filter_map, elsewhere]
      congr 1
      refine List.filter_congr fun b _ => ?_
      simp [hunder, List.cons_prefix_cons]
    rw [hbelow, hbelow, hsame rfl]
  · rw [hother hs]

/-- So do findings below several steps, one after another. -/
theorem elsewhere_flatMap_under {l : List α} {s : α → Step} {found others : α → List β}
    (hsame : ∀ a ∈ l, s a = step → elsewhere place path (found a) = elsewhere place path (others a))
    (hother : ∀ a ∈ l, s a ≠ step → found a = others a) :
    elsewhere place (step :: path) (l.flatMap fun a => (found a).map (under (s a))) =
      elsewhere place (step :: path) (l.flatMap fun a => (others a).map (under (s a))) := by
  rw [elsewhere_flatMap, elsewhere_flatMap]
  exact List.flatMap_congr fun a ha => elsewhere_under under hunder (hsame a ha) (hother a ha)

/-- Taking out a member changes nothing elsewhere, if it is all that the path leads to. -/
theorem elsewhere_withoutMember {name : String} {members : List (String × Json)}
    (hroot : ∀ v, (name, v) ∈ members → path = []) (found : Json → List β) :
    elsewhere place (.key name :: path)
        (members.flatMap fun m => (found m.2).map (under (.key m.1))) =
      elsewhere place (.key name :: path)
        ((Json.withoutMember name path members).flatMap fun m =>
          (found m.2).map (under (.key m.1))) := by
  induction members with
  | nil => rfl
  | cons head rest ih =>
    obtain ⟨key, v⟩ := head
    have hrest := ih fun v hm => hroot v (List.mem_cons_of_mem _ hm)
    rw [Json.withoutMember, Members.revise_cons, List.flatMap_cons, elsewhere_append, hrest]
    by_cases hkey : key = name
    · subst hkey
      obtain rfl := hroot v List.mem_cons_self
      have hnone : elsewhere place [.key key] ((found v).map (under (.key key))) =
          elsewhere place [.key key] ([].map (under (.key key))) :=
        elsewhere_under under hunder (fun _ => by rw [elsewhere_root, elsewhere_root])
          (fun hne => absurd rfl hne)
      simp only [if_true, Json.without_nil]
      rw [hnone]
      rfl
    · simp only [if_neg hkey]
      rw [List.flatMap_cons, elsewhere_append]
      rfl

end Elsewhere

namespace Checked

/-- Two looks find the same elsewhere. -/
structure FindsAlike {α : Type} (path : Path) (c d : Checked α) : Prop where
  /-- The violations elsewhere are the same, in the same order. -/
  violations : elsewhere Violation.path path c.violations =
    elsewhere Violation.path path d.violations
  /-- So are the places elsewhere where a default was used. -/
  defaulted : elsewhere id path c.defaulted = elsewhere id path d.defaulted

/-- Two looks find the same elsewhere, and leave values that differ at the end of the path
alone. -/
structure Alike (path : Path) (c d : Checked Json) : Prop extends FindsAlike path c d where
  /-- The values are the same without what lies there. -/
  value : c.value.without path = d.value.without path

/-- The same of two looks at a field. -/
structure AlikeField (path : Path) (c d : Checked (Option Json)) : Prop
    extends FindsAlike path c d where
  /-- The fields are the same without what lies there. -/
  value : c.value.bind (·.without path) = d.value.bind (·.without path)

theorem FindsAlike.root {α : Type} (c d : Checked α) : c.FindsAlike [] d := by
  refine ⟨?_, ?_⟩
  · rw [elsewhere_root, elsewhere_root]
  · rw [elsewhere_root, elsewhere_root]

theorem Alike.refl (path : Path) (c : Checked Json) : c.Alike path c := ⟨⟨rfl, rfl⟩, rfl⟩

theorem AlikeField.refl (path : Path) (c : Checked (Option Json)) : c.AlikeField path c :=
  ⟨⟨rfl, rfl⟩, rfl⟩

end Checked

namespace Schema

/-- The node looks at what is inside one by one. -/
def KeepsApart : Schema → Prop
  | object _ _ => True
  | array _ unique _ => unique = false
  | leaf .. | openObject _ => False

/-- Every value of the candidate before the end of the path is met by a node of its kind that
looks at what is inside one by one. -/
def Separates (node : Schema) (candidate : Json) (path : Path) : Prop :=
  ∀ above, above <+: path → above ≠ path →
    ∃ inner, node.at? above = some inner ∧ inner.KeepsApart ∧
      ∀ v, candidate.Holds above v → inner.kind.admits v = true

variable {node : Schema} {v : Json} {step : Step} {path : Path}

/-- Before a first step the candidate itself is met. -/
theorem Separates.root (h : node.Separates v (step :: path)) :
    node.KeepsApart ∧ node.kind.admits v = true := by
  obtain ⟨inner, hat, hapart, hkind⟩ := h [] List.nil_prefix (List.cons_ne_nil step path).symm
  rw [at?_nil] at hat
  cases hat
  exact ⟨hapart, hkind v (.self v)⟩

theorem Separates.field {header : Header} {properties : List (String × Schema)}
    {members : List (String × Json)} {name : String} {child : Schema}
    (h : (object header properties).Separates (.object members) (.key name :: path))
    (hl : properties.lookup name = some child) (hm : (name, v) ∈ members) :
    child.Separates v path := by
  intro above hprefix hne
  obtain ⟨inner, hat, hapart, hkind⟩ := h (.key name :: above)
    (List.cons_prefix_cons.mpr ⟨rfl, hprefix⟩) (fun he => hne (List.cons.inj he).2)
  rw [at?, hl, Option.bind_some] at hat
  exact ⟨inner, hat, hapart, fun w hw => hkind w (.member hm hw)⟩

/-- A path that goes on below a member goes on below a declared field. -/
theorem Separates.declared {header : Header} {properties : List (String × Schema)} {name : String}
    (h : (object header properties).Separates v (.key name :: step :: path)) :
    name ∈ properties.map Prod.fst := by
  obtain ⟨inner, hat, -⟩ := h [.key name] (List.cons_prefix_cons.mpr ⟨rfl, List.nil_prefix⟩)
    (fun he => List.cons_ne_nil step path (List.cons.inj he).2.symm)
  obtain ⟨child, hl, -⟩ := Option.bind_eq_some_iff.mp hat
  exact Members.mem_keys (Members.mem_of_lookup hl)

theorem Separates.element {header : Header} {unique : Bool} {items : Schema}
    {elements : List Json} {i : Nat}
    (h : (array header unique items).Separates (.array elements) (.index i :: path))
    (hv : elements[i]? = some v) : items.Separates v path := by
  intro above hprefix hne
  obtain ⟨inner, hat, hapart, hkind⟩ := h (.index i :: above)
    (List.cons_prefix_cons.mpr ⟨rfl, hprefix⟩) (fun he => hne (List.cons.inj he).2)
  exact ⟨inner, hat, hapart, fun w hw => hkind w (.element hv hw)⟩

variable {limits : Limits} {depth : Nat} {u : Json}

theorem alike_examineGiven (h : u.without path = v.without path)
    (hlook : (node.examine limits depth u).Alike path (node.examine limits depth v)) :
    (node.examineGiven limits depth u).Alike path (node.examineGiven limits depth v) := by
  by_cases hdepth : depth ≤ limits.maxDepth
  · rwa [examineGiven_of_le hdepth, examineGiven_of_le hdepth]
  · rw [examineGiven_of_lt (Nat.not_le.mp hdepth), examineGiven_of_lt (Nat.not_le.mp hdepth)]
    exact ⟨⟨rfl, rfl⟩, h⟩

section Fields

variable {name : String} {us vs : List (String × Json)}
  (h : Json.withoutMember name path us = Json.withoutMember name path vs)

include h

/-- A field off the path has the same value in both. -/
theorem fieldValue_eq_of_withoutMember {key : String} (hkey : key ≠ name) :
    fieldValue us key = fieldValue vs key := by
  rw [fieldValue, Json.lookup_eq_of_withoutMember hkey h, fieldValue]

/-- The field on the path is looked at alike, if its values are. -/
theorem alikeField_examineField
    (hlook : ∀ u v, (name, u) ∈ us → path ≠ [] → u.without path = v.without path →
      (node.examine limits depth u).Alike path (node.examine limits depth v)) :
    (node.examineField limits depth (fieldValue us name)).AlikeField path
      (node.examineField limits depth (fieldValue vs name)) := by
  cases path with
  | nil => exact ⟨.root _ _, by simp only [Json.without_nil, Option.bind_fun_none]⟩
  | cons step path =>
    have hfield := rel_fieldValue (fun _ _ => Json.isNull_eq_of_without)
      (Json.lookup_without_of_withoutMember h)
    generalize fieldValue vs name = field at hfield ⊢
    cases hu : fieldValue us name with
    | none =>
      rw [hu] at hfield
      cases hfield
      exact .refl _ _
    | some u =>
      rw [hu] at hfield
      cases hfield with
      | @some _ v huv =>
        rw [examineField_some, examineField_some]
        have hgiven := alike_examineGiven huv
          (hlook u v (mem_of_fieldValue hu) (List.cons_ne_nil _ _) huv)
        exact ⟨⟨hgiven.violations, hgiven.defaulted⟩, hgiven.value⟩

/-- Undeclared members are carried over alike. A path that goes on below a member leads
through a declared one. -/
theorem elsewhere_carried {properties : List (String × Schema)}
    (hdeclared : path ≠ [] → name ∈ properties.map Prod.fst) :
    elsewhere Violation.path (.key name :: path) ((undeclared properties us).flatMap fun m =>
      (limits.carry depth m.2).violations.map (Violation.under (.key m.1))) =
    elsewhere Violation.path (.key name :: path) ((undeclared properties vs).flatMap fun m =>
      (limits.carry depth m.2).violations.map (Violation.under (.key m.1))) := by
  have hnames : ∀ members : List (String × Json), ∀ v,
      (name, v) ∈ undeclared properties members → path = [] := by
    intro members v hm
    by_contra hne
    exact (mem_undeclared.mp hm).2 (hdeclared hne)
  rw [elsewhere_withoutMember Violation.under (fun _ _ => rfl) (hnames us) fun v =>
      (limits.carry depth v).violations,
    elsewhere_withoutMember Violation.under (fun _ _ => rfl) (hnames vs) fun v =>
      (limits.carry depth v).violations,
    Json.withoutMember_undeclared, Json.withoutMember_undeclared, h]

/-- An object is looked at alike if the field on the path is. -/
theorem alike_examine_object {header : Header} {properties : List (String × Schema)}
    (hd : (properties.map Prod.fst).Nodup) (hdeclared : path ≠ [] → name ∈ properties.map Prod.fst)
    (hfield : ∀ child, (name, child) ∈ properties →
      (child.examineField limits (depth + 1) (fieldValue us name)).AlikeField path
        (child.examineField limits (depth + 1) (fieldValue vs name))) :
    ((object header properties).examine limits depth (.object us)).Alike (.key name :: path)
      ((object header properties).examine limits depth (.object vs)) := by
  have hother : ∀ key (child : Schema), key ≠ name →
      child.examineField limits (depth + 1) (fieldValue us key) =
        child.examineField limits (depth + 1) (fieldValue vs key) :=
    fun key child hkey => by rw [fieldValue_eq_of_withoutMember h hkey]
  have hstep : ∀ p ∈ properties, Step.key p.1 = .key name →
      (p.2.examineField limits (depth + 1) (fieldValue us p.1)).AlikeField path
        (p.2.examineField limits (depth + 1) (fieldValue vs p.1)) := by
    rintro ⟨key, child⟩ hp he
    obtain rfl : key = name := Step.key.inj he
    exact hfield child hp
  have hkey : ∀ p ∈ properties, Step.key p.1 ≠ .key name →
      p.2.examineField limits (depth + 1) (fieldValue us p.1) =
        p.2.examineField limits (depth + 1) (fieldValue vs p.1) :=
    fun p _ hne => hother p.1 p.2 fun he => hne (congrArg Step.key he)
  refine ⟨⟨?_, ?_⟩, ?_⟩
  · rw [violations_examine_object, violations_examine_object, elsewhere_append, elsewhere_append,
      elsewhere_carried h hdeclared]
    congr 1
    exact elsewhere_flatMap_under Violation.under (fun _ _ => rfl)
      (fun p hp he => (hstep p hp he).violations) fun p hp hne => by rw [hkey p hp hne]
  · rw [defaulted_examine_object, defaulted_examine_object]
    exact elsewhere_flatMap_under List.cons (fun _ _ => rfl)
      (fun p hp he => (hstep p hp he).defaulted) fun p hp hne => by rw [hkey p hp hne]
  · rw [value_examine_object, value_examine_object, Json.without_key, Json.without_key,
      replaceDeclared_eq hd, replaceDeclared_eq hd, Json.withoutMember_append,
      Json.withoutMember_append, Json.withoutMember_undeclared, Json.withoutMember_undeclared, h]
    congr 3
    rw [Json.withoutMember, revise_declaredMembers, Json.withoutMember, revise_declaredMembers]
    refine List.filterMap_congr fun p hp => ?_
    obtain ⟨key, child⟩ := p
    by_cases he : key = name
    · subst he
      have hvalue := (hfield child hp).value
      simp only [if_true, hvalue]
    · simp only [if_neg he, hother key child he]

end Fields

section Elements

variable {us vs : List Json} {i : Nat}
  (h : Json.withoutElement i path us = Json.withoutElement i path vs)

include h

/-- What is found below the elements of both is the same elsewhere, if it is for the elements
on the path. -/
theorem elsewhere_zipIdx {β : Type} {place : β → Path} (under : Step → β → β)
    (hunder : ∀ step b, place (under step b) = step :: place b) {found : Json → List β}
    (hfound : ∀ u v, us[i]? = some u → u.without path = v.without path →
      elsewhere place path (found u) = elsewhere place path (found v)) :
    elsewhere place (.index i :: path)
      (us.zipIdx.flatMap fun p => (found p.1).map (under (.index p.2))) =
    elsewhere place (.index i :: path)
      (vs.zipIdx.flatMap fun p => (found p.1).map (under (.index p.2))) := by
  rw [elsewhere_flatMap, elsewhere_flatMap, List.flatMap_def, List.flatMap_def]
  refine congrArg List.flatten (List.ext_getElem? fun j => ?_)
  simp only [List.getElem?_map, List.getElem?_zipIdx, Nat.zero_add, Option.map_map]
  rcases Json.getElem?_cases_of_withoutElement h j with hj | ⟨u, v, hu, hv, rfl, huv⟩
  · rw [hj]
  · rw [hu, hv, Option.map_some, Option.map_some]
    exact congrArg some (elsewhere_under under hunder (fun _ => hfound u v hu huv)
      fun hne => absurd rfl hne)

theorem withoutElement_map {look : Json → Json}
    (hlook : ∀ u v, us[i]? = some u → u.without path = v.without path →
      (look u).without path = (look v).without path) :
    Json.withoutElement i path (us.map look) = Json.withoutElement i path (vs.map look) := by
  refine List.ext_getElem? fun j => ?_
  simp only [Json.withoutElement, List.getElem?_modify, List.getElem?_map]
  rcases Json.getElem?_cases_of_withoutElement h j with hj | ⟨u, v, hu, hv, rfl, huv⟩
  · rw [hj]
  · rw [hu, hv, Option.map_some, Option.map_some]
    simp only [if_true, Option.map_eq_map, Option.map_some, hlook u v hu huv]

/-- An array of elements that need not be distinct is looked at alike if the element on the
path is. -/
theorem alike_examine_array {header : Header} {items : Schema}
    (helement : ∀ u v, us[i]? = some u → u.without path = v.without path →
      (items.examineGiven limits (depth + 1) u).Alike path
        (items.examineGiven limits (depth + 1) v)) :
    ((array header false items).examine limits depth (.array us)).Alike (.index i :: path)
      ((array header false items).examine limits depth (.array vs)) := by
  have hlength := Json.length_eq_of_withoutElement h
  by_cases hl : us.length ≤ limits.maxArrayLength
  · have hl' : vs.length ≤ limits.maxArrayLength := hlength ▸ hl
    refine ⟨⟨?_, ?_⟩, ?_⟩
    · rw [violations_examine_array hl, violations_examine_array hl', elsewhere_append,
        elsewhere_append, elsewhere_zipIdx h Violation.under (fun _ _ => rfl)
          fun u v hu huv => (helement u v hu huv).violations]
      rfl
    · rw [defaulted_examine_array hl, defaulted_examine_array hl']
      exact elsewhere_zipIdx h List.cons (fun _ _ => rfl)
        fun u v hu huv => (helement u v hu huv).defaulted
    · rw [value_examine_array hl, value_examine_array hl', Json.without_index, Json.without_index,
        withoutElement_map h fun u v hu huv => (helement u v hu huv).value]
  · have hlong : limits.maxArrayLength < us.length := Nat.not_le.mp hl
    have hlong' : limits.maxArrayLength < vs.length := hlength ▸ hlong
    rw [examine_array_of_lt hlong, examine_array_of_lt hlong', hlength]
    refine ⟨⟨rfl, rfl⟩, ?_⟩
    rw [Json.without_index, Json.without_index, h]

end Elements

/-- Values that differ at the end of a path alone are looked at alike, if the path leads
through nodes that look at what is inside one by one. -/
theorem alike_examine (hn : node.WellFormed) (h : u.without path = v.without path)
    (hpath : node.Separates u path) :
    (node.examine limits depth u).Alike path (node.examine limits depth v) := by
  induction path generalizing node depth u v with
  | nil => exact ⟨.root _ _, by rw [Json.without_nil, Json.without_nil]⟩
  | cons step path ih =>
    obtain ⟨hapart, hkind⟩ := hpath.root
    rcases Json.without_eq_cases h with rfl | ⟨name, us, vs, rfl, rfl, rfl, hmembers⟩ |
      ⟨i, us, vs, rfl, rfl, rfl, helements⟩
    · exact .refl _ _
    · obtain ⟨header, properties, rfl⟩ : ∃ header properties, node = object header properties := by
        cases node with
        | object header properties => exact ⟨header, properties, rfl⟩
        | leaf | openObject => exact hapart.elim
        | array => cases hkind
      cases hn with
      | object _ hd hp =>
        refine alike_examine_object hmembers hd (fun hne => ?_) fun child hm => ?_
        · cases path with
          | nil => exact absurd rfl hne
          | cons => exact hpath.declared
        · refine alikeField_examineField hmembers fun u v hu _ huv => ?_
          exact ih (hp name child hm) huv (hpath.field (Members.lookup_of_mem hd hm) hu)
    · obtain ⟨header, items, rfl⟩ : ∃ header items, node = array header false items := by
        cases node with
        | array header unique items => exact ⟨header, items, by rw [show unique = false from hapart]⟩
        | leaf | openObject => exact hapart.elim
        | object => cases hkind
      cases hn with
      | array _ hi =>
        refine alike_examine_array helements fun u v hu huv => ?_
        exact alike_examineGiven huv (ih hi huv (hpath.element hu))

/-- Two configurations that differ at one place alone, before which every value is met by
an object with declared fields or an array of elements that need not be distinct, get the
same findings elsewhere, and stay values that differ there alone. -/
theorem validate_apart {path : String} {definition : Json} (hd : definition.WellKeyed)
    {node : Schema} (hn : ofJson path definition = .ok node) (limits : Limits)
    {candidate other : Json} {place : Path} (h : candidate.without place = other.without place)
    (hplace : node.Separates candidate place) :
    let report := node.validate limits candidate
    let report' := node.validate limits other
    elsewhere Violation.path place report.violations =
        elsewhere Violation.path place report'.violations ∧
      elsewhere id place report.defaulted = elsewhere id place report'.defaulted ∧
      report.normalized.without place = report'.normalized.without place := by
  intro report report'
  cases place with
  | nil =>
    rw [elsewhere_root, elsewhere_root, elsewhere_root, elsewhere_root, Json.without_nil,
      Json.without_nil]
    exact ⟨rfl, rfl, rfl⟩
  | cons step place =>
    obtain ⟨hapart, hkind⟩ := hplace.root
    have hgiven : candidate.isNull = false := by
      cases candidate with
      | null => cases node <;> first | exact hapart.elim | cases hkind
      | _ => rfl
    have hgiven' : other.isNull = false := (Json.isNull_eq_of_without h).symm.trans hgiven
    have halike : (node.examine limits 0 candidate).Alike (step :: place)
        (node.examine limits 0 other) := alike_examine (wellFormed_of_ofJson hd hn) h hplace
    have hreport : report = _ := validate_of_not_null hgiven
    have hreport' : report' = _ := validate_of_not_null hgiven'
    rw [hreport, hreport']
    exact ⟨halike.violations, halike.defaulted, halike.value⟩

/-- However the attempts are given, the name is missing and a tag is repeated. -/
theorem validate_apart_retry :
    let limits : Limits := { maxDepth := 2 }
    let place : Path := [.key "retry", .key "attempts"]
    let tags := ("tags", Json.array [.string "a", .string "a"])
    let candidate := Json.object [("retry", .object [("attempts", .number (.integer 0))]), tags]
    let other := Json.object [("retry", .object [("attempts", .array [.array []])]), tags]
    let report := retrySchema.validate limits candidate
    let report' := retrySchema.validate limits other
    candidate.without place = other.without place ∧ retrySchema.Separates candidate place ∧
      (elsewhere Violation.path place report.violations).map (·.path) =
        [[.key "name"], [.key "tags", .index 1]] ∧
      elsewhere Violation.path place report.violations =
        elsewhere Violation.path place report'.violations ∧
      elsewhere id place report.defaulted = elsewhere id place report'.defaulted ∧
      report.normalized.without place = report'.normalized.without place := by
  intro limits place tags candidate other report report'
  have hsame : candidate.without place = other.without place := rfl
  have hplace : retrySchema.Separates candidate place := by
    intro above hprefix hne
    rcases List.prefix_cons_iff.mp hprefix with rfl | ⟨below, rfl, hbelow⟩
    · refine ⟨retrySchema, rfl, trivial, fun v hv => ?_⟩
      change Json.Holds (.object _) [] v at hv
      cases hv
      rfl
    · rcases List.prefix_cons_iff.mp hbelow with rfl | ⟨last, rfl, hlast⟩
      · refine ⟨_, rfl, trivial, fun v hv => ?_⟩
        change Json.Holds (.object _) [.key "retry"] v at hv
        cases hv with
        | member hm hv =>
          cases hv
          cases Members.eq_of_mem (by decide) hm List.mem_cons_self
          rfl
      · rw [List.prefix_nil.mp hlast] at hne
        exact absurd rfl hne
  exact ⟨hsame, hplace, by decide +kernel,
    validate_apart wellKeyed_retryDefinition (ofJson_retryDefinition "retry") limits hsame hplace⟩

end Schema

end PipelineConfig
