import PipelineConfig.Proofs.Idempotence
import PipelineConfig.Proofs.SoundDefaults
import PipelineConfig.Proofs.WiderLimits

/-!
# Accepted configurations looked at again

Limits are measured on what a candidate gives, so that an accepted configuration may
reach deeper than its candidate: what stands in for a field left out is not charged.
Validated again, the same value is given, and is charged for all of its depth. Nothing
else can be wrong with it. So it is accepted again exactly if nothing in it lies below
the greatest depth.
-/

namespace PipelineConfig

/-- An object with replaced fields is as high as its fields and the other members
allow. -/
theorem height_replaceDeclared_le {properties : List (String × Schema)}
    {members : List (String × Json)} {value : String → Schema → Option Json} {bound : Nat}
    (hd : (properties.map Prod.fst).Nodup)
    (hdeclared : ∀ name node, (name, node) ∈ properties → ∀ w, value name node = some w →
      w.height < bound)
    (hothers : ∀ name w, (name, w) ∈ undeclared properties members → w.height < bound) :
    (Json.object (replaceDeclared value properties members)).height ≤ bound := by
  rw [Json.height, Json.heightOfMembers_le_iff]
  intro name w hm
  rw [replaceDeclared_eq hd, List.mem_append] at hm
  rcases hm with hm | hm
  · obtain ⟨node, hp, hw⟩ := mem_of_mem_declaredMembers hm
    exact hdeclared name node hp w hw
  · exact hothers name w hm

namespace Schema

variable {limits : Limits} {depth : Nat} {node : Schema} {v : Json}

/-- A filled value spells out all that a look would fill in, and is charged for it all. -/
theorem height_fill_le (hn : node.WellFormed) (hdepth : depth ≤ limits.maxDepth)
    (hw : (node.examine limits depth (node.fill v)).WithinLimits) :
    depth + (node.fill v).height ≤ limits.maxDepth := by
  induction node, v using inductionAlong generalizing depth with
  | other node v hk =>
    rw [fill_of_not_admits hk] at hw ⊢
    rw [examine_of_not_admits hk] at hw
    exact Limits.withinLimits_carry.mp (Limits.findsOnly_mismatch.mp hw).2
  | leaf header type allowed v hk =>
    rw [fill]
    cases v with
    | null | bool | number | string => exact hdepth
    | array | object => cases type <;> cases hk
  | openObject header members =>
    rw [fill] at hw ⊢
    rw [examine_openObject] at hw
    exact Limits.withinLimits_carry.mp hw
  | object header properties members ih =>
    cases hn with
    | object _ hd hp =>
      rw [fill_object] at hw ⊢
      obtain ⟨hfields, hothers⟩ := findsOnly_examine_object.mp hw
      have hheight : (Json.object (replaceDeclared (fun name node =>
          node.fillField (fieldValue members name)) properties members)).height ≤
          limits.maxDepth - depth := by
        refine height_replaceDeclared_le hd (fun name child hm w hfill => ?_) fun name w hu => ?_
        · have hlook := hfields name child hm
          rw [fieldValue_filled hd hm (hp name child hm).header, hfill,
            findsOnly_examineField_some] at hlook
          obtain ⟨v, -, rfl⟩ := Option.map_eq_some_iff.mp hfill
          obtain ⟨hle, hchild⟩ := withinLimits_examineGiven.mp hlook
          have hbound := ih name child hm v (hp name child hm) hle hchild
          omega
        · rw [← undeclared_replaceDeclared hd] at hu
          have hbound := Limits.withinLimits_carry.mp (hothers name w hu)
          omega
      omega
  | array header unique items elements ih =>
    cases hn with
    | array _ hi =>
      rw [fill_array] at hw ⊢
      have hlooks := ((findsOnly_examine_array (length_le_of_withinLimits hw)).mp hw).1
      have hheight : (Json.array (elements.map items.fill)).height ≤ limits.maxDepth - depth := by
        rw [Json.height, Json.heightOfElements_le_iff]
        intro w hm
        obtain ⟨v, hv, rfl⟩ := List.mem_map.mp hm
        obtain ⟨hle, hlook⟩ := withinLimits_examineGiven.mp (hlooks _ hm)
        have hbound := ih v hi hle hlook
        omega
      omega

/-- A value with which nothing was wrong has only limits to meet when it is looked at
again as it was left: under limits wide enough for its depth nothing is found. -/
theorem findsOnly_limits_again (hn : node.WellFormed) (hv : v.WellKeyed)
    (h : (node.examine limits depth v).violations = []) :
    (node.examine limits depth (node.examine limits depth v).value).FindsOnly
      (· = .limitExceeded) := by
  let left := (node.examine limits depth v).value
  let wider : Limits := { limits with maxDepth := limits.maxDepth + depth + left.height }
  have hle : limits.Within wider := by
    refine ⟨?_, Nat.le_refl _⟩
    change limits.maxDepth ≤ limits.maxDepth + depth + left.height
    omega
  have hclean : (node.examine limits depth v).FindsOnly fun _ => False :=
    Checked.findsOnly_false_iff.mpr h
  have hwide : node.examine wider depth v = node.examine limits depth v :=
    examine_wider hle (hclean.imp fun _ hfalse => hfalse.elim)
  have hsettles : node.Settles wider := settles_of_wellFormed hn
  have hsettled := (hsettles depth v).violations
  rw [hwide, h] at hsettled
  have hagain : (node.examine wider depth left).violations = [] := by
    refine hsettled ?_
    change depth + left.height ≤ limits.maxDepth + depth + left.height
    omega
  exact findsOnly_limits_of_clean hn (wellKeyed_examine hn hv)
    (Checked.findsOnly_false_iff.mpr hagain) depth

/-- Nothing is wrong again exactly if everything that is left lies within the greatest
depth. -/
theorem violations_again_iff (hn : node.WellFormed) (hdepth : depth ≤ limits.maxDepth)
    (h : (node.examine limits depth v).violations = []) :
    (node.examine limits depth (node.examine limits depth v).value).violations = [] ↔
      depth + (node.examine limits depth v).value.height ≤ limits.maxDepth := by
  have hclean : (node.examine limits depth v).FindsOnly fun _ => False :=
    Checked.findsOnly_false_iff.mpr h
  constructor
  · intro hagain
    rw [value_examine_eq_fill (hclean.imp fun _ hfalse => hfalse.elim)] at hagain ⊢
    have hfound := Checked.findsOnly_false_iff.mpr hagain
    exact height_fill_le hn hdepth (hfound.imp fun _ hfalse => hfalse.elim)
  · intro hheight
    have hsettles : node.Settles limits := settles_of_wellFormed hn
    rw [(hsettles depth v).violations hheight, h]

/-- What a field is left as was left by one look, at what it has or at what stands in
for it. -/
theorem exists_examine_of_field {field : Option Json} {w : Json} (hn : node.header.WellFormed)
    (hfield : ∀ v, field = some v → v.WellKeyed) (hdepth : depth ≤ limits.maxDepth)
    (h : (node.examineField limits depth field).violations = [])
    (hw : (node.examineField limits depth field).value = some w) :
    ∃ v, v.WellKeyed ∧ (node.examine limits depth v).violations = [] ∧
      (node.examine limits depth v).value = w := by
  cases field with
  | some v =>
    rw [examineField_some, examineGiven_of_le hdepth] at h hw
    exact ⟨v, hfield v rfl, h, Option.some.inj hw⟩
  | none =>
    rw [value_examineField_none] at hw
    obtain ⟨v, hv, hw⟩ := Option.map_eq_some_iff.mp hw
    have hclean := (findsOnly_examineField_none.mp (Checked.findsOnly_false_iff.mpr h)).2 v hv
    exact ⟨v, (substitute_wellFormed hn hv).1, Checked.findsOnly_false_iff.mp hclean, hw⟩

/-- A field with which nothing was wrong has only limits to meet as it was left, and
meets none exactly if it ends within the greatest depth. -/
theorem examineField_again {field : Option Json} (hn : node.WellFormed)
    (hfield : ∀ v, field = some v → v.WellKeyed) (hdepth : depth ≤ limits.maxDepth)
    (h : (node.examineField limits depth field).violations = []) :
    let left := (node.examineField limits depth field).value
    (node.examineField limits depth left).FindsOnly (· = .limitExceeded) ∧
      ((node.examineField limits depth left).violations = [] ↔
        ∀ w, left = some w → depth + w.height ≤ limits.maxDepth) := by
  intro left
  cases hleft : left with
  | none =>
    have hsettles : node.Settles limits := settles_of_wellFormed hn
    have hnothing : ∀ w, left = some w → depth + w.height ≤ limits.maxDepth := by
      intro w hw
      cases hleft.symm.trans hw
    have hagain : (node.examineField limits depth left).violations = [] :=
      ((settles_field hsettles depth field).violations hnothing).trans h
    rw [hleft] at hagain hnothing
    refine ⟨fun x hx => ?_, iff_of_true hagain hnothing⟩
    rw [hagain] at hx
    cases hx
  | some w =>
    obtain ⟨v, hv, hclean, rfl⟩ := exists_examine_of_field hn.header hfield hdepth h hleft
    rw [findsOnly_examineField_some, examineField_some, examineGiven_of_le hdepth,
      violations_again_iff hn hdepth hclean]
    refine ⟨findsOnly_limits_again hn hv hclean, fun hle w hw => ?_, fun hle => hle _ rfl⟩
    cases hw
    exact hle

end Schema

namespace Catalog

/-- An accepted configuration of a stage is left as it is by a second validation, which
finds nothing but limits, and accepts it exactly if nothing in it lies too deep. -/
theorem accepted_again_iff {definition : Json} (hd : definition.WellKeyed)
    {catalog : Catalog} (hcatalog : Catalog.ofJson definition = .ok catalog)
    {category : Category} {typeKey : String} {node : Schema}
    (hstage : catalog.lookup category typeKey = .ok node) (limits : Limits) {candidate : Json}
    (hc : candidate.WellKeyed) (hok : (node.validate limits candidate).ok = true) :
    let first := node.validate limits candidate
    let second := node.validate limits first.normalized
    second.normalized = first.normalized ∧ second.defaulted = [] ∧
      (∀ x ∈ second.violations, x.kind = .limitExceeded) ∧
      (second.ok = true ↔
        ∀ place v, first.normalized.Holds place v → place.depth ≤ limits.maxDepth) := by
  have hnode := wellFormed_of_lookup hd hcatalog hstage
  intro first second
  let found := node.examineField limits 0 candidate.asField
  have hclean : found.violations = [] := Report.ok_iff.mp hok
  have hsecond : second = _ := Schema.validate_eq limits node first.normalized
  have hgiven : first.normalized.asField = found.value :=
    Schema.asField_normalized hnode.header candidate
  rw [hgiven] at hsecond
  have hsettles : node.Settles limits := Schema.settles_of_wellFormed hnode
  have hsettled := Schema.settles_field hsettles 0 candidate.asField
  have hfield : ∀ v, candidate.asField = some v → v.WellKeyed := by
    intro v hv
    rw [Json.asField] at hv
    split at hv
    · cases hv
    · cases hv
      exact hc
  obtain ⟨honly, hiff⟩ := Schema.examineField_again hnode hfield (Nat.zero_le _) hclean
  rw [Report.ok_iff, hsecond]
  refine ⟨congrArg (Option.getD · Json.null) hsettled.value, hsettled.defaulted, honly,
    hiff.trans ?_⟩
  have hheight : (∀ place v, first.normalized.Holds place v → place.depth ≤ limits.maxDepth) ↔
      first.normalized.height ≤ limits.maxDepth := Json.height_le_iff.symm
  rw [hheight]
  change (∀ w, found.value = some w → 0 + w.height ≤ limits.maxDepth) ↔
    (found.value.getD Json.null).height ≤ limits.maxDepth
  cases found.value with
  | none => exact iff_of_true (fun w hw => by cases hw) (Nat.zero_le _)
  | some w => simp

/-- The pause that a default adds lies two levels down, which is not charged at first.
Under a greatest depth of two it is accepted again. -/
theorem accepted_again_retry :
    let candidate := Json.object [("name", .string "a"), ("retry", .object [])]
    let first := retrySchema.validate { maxDepth := 2 } candidate
    let second := retrySchema.validate { maxDepth := 2 } first.normalized
    first.ok = true ∧ second.normalized = first.normalized ∧ second.defaulted = [] ∧
      second.ok = true := by
  intro candidate first second
  have hok : first.ok = true := by decide +kernel
  obtain ⟨hv, hd, -, hiff⟩ := accepted_again_iff wellKeyed_retryCatalogDefinition
    ofJson_retryCatalogDefinition (show retryCatalog.lookup .source "retry" = .ok retrySchema from
    rfl) { maxDepth := 2 } (show candidate.WellKeyed by decide) hok
  have hheight : first.normalized.height ≤ 2 := by decide +kernel
  exact ⟨hok, hv, hd, hiff.mpr (Json.height_le_iff.mp hheight)⟩

/-- Under a greatest depth of one the same candidate is accepted, but the configuration
that it is left as is not. -/
theorem rejected_again_retry :
    let candidate := Json.object [("name", .string "a"), ("retry", .object [])]
    let first := retrySchema.validate { maxDepth := 1 } candidate
    Catalog.ofJson retryCatalogDefinition = .ok retryCatalog ∧
      retryCatalog.lookup .source "retry" = .ok retrySchema ∧
      first.ok = true ∧ ¬ (retrySchema.validate { maxDepth := 1 } first.normalized).ok = true :=
  ⟨ofJson_retryCatalogDefinition, rfl, by decide +kernel, by decide +kernel⟩

end Catalog

end PipelineConfig
