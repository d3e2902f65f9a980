import PipelineConfig.Proofs.Catalogs
import PipelineConfig.Proofs.Filling
import PipelineConfig.Proofs.Substituted

/-!
# Checked defaults meet nothing but limits

A catalog checks every default once, on its own and under the default limits. A
validation meets it at any depth, inside other defaults and under any limits. A value
with which nothing was wrong in one look has only limits to meet in any other: what the
second look leaves unfilled cannot make two elements the same, since they would be the
same when filled as well. So a default of an accepted catalog is never to blame for
anything but a limit.
-/

namespace PipelineConfig

namespace Schema

variable {limits loaded : Limits} {node : Schema}

/-- A field with which nothing was wrong has only limits to meet. -/
theorem findsOnly_limits_field {depth other : Nat} {field : Option Json}
    (hfield : ∀ v, field = some v ∨ node.substitute.value? = some v → v.WellKeyed)
    (h : ∀ v, v.WellKeyed → (node.examine loaded depth v).FindsOnly (fun _ => False) →
      (node.examine limits other v).FindsOnly (· = .limitExceeded))
    (hclean : (node.examineField loaded depth field).FindsOnly fun _ => False) :
    (node.examineField limits other field).FindsOnly (· = .limitExceeded) := by
  cases field with
  | some v =>
    rw [findsOnly_examineField_some, findsOnly_examineGiven] at hclean ⊢
    have hle : depth ≤ loaded.maxDepth := Nat.not_lt.mp hclean.1
    exact ⟨fun _ => rfl, fun _ => h v (hfield v (.inl rfl)) (hclean.2 hle)⟩
  | none =>
    rw [findsOnly_examineField_none] at hclean ⊢
    refine ⟨fun hmissing => (hclean.1 hmissing).elim, fun v hv => ?_⟩
    exact h v (hfield v (.inr hv)) (hclean.2 v hv)

/-- Elements that differ when filled differ in whatever a look leaves of them. -/
theorem duplicates_eq_nil_of_filled (hi : node.WellFormed) {elements : List Json}
    (hwell : ∀ v ∈ elements, v.WellKeyed) (depth : Nat)
    (h : duplicates (elements.map node.fill) = []) :
    duplicates (elements.map fun v => (node.examineGiven limits depth v).value) = [] := by
  rw [duplicates_eq_nil_iff, List.pairwise_map] at h ⊢
  refine h.imp_of_mem fun {u v} hu hv hdiffer => Bool.eq_false_iff.mpr fun hsame => ?_
  have hkeyed : ∀ w ∈ elements, (node.examineGiven limits depth w).value.WellKeyed :=
    fun w hw => wellKeyed_examineGiven (hwell w hw) (wellKeyed_examine hi (hwell w hw))
  have hfilled := same_fill hi (hkeyed u hu) (hkeyed v hv) hsame
  rw [fill_examineGiven (fill_examine hi depth u), fill_examineGiven (fill_examine hi depth v),
    hdiffer] at hfilled
  cases hfilled

/-- With no element of an array was anything wrong, and filled they do not repeat if
they must not. -/
theorem clean_array {header : Header} {unique : Bool} {elements : List Json} {depth : Nat}
    (h : ((array header unique node).examine loaded depth (.array elements)).FindsOnly
      fun _ => False) :
    (∀ v ∈ elements, (node.examine loaded (depth + 1) v).FindsOnly fun _ => False) ∧
      (unique = true → duplicates (elements.map node.fill) = []) := by
  have hwithin : ((array header unique node).examine loaded depth
      (.array elements)).WithinLimits := h.imp fun _ hfalse => hfalse.elim
  obtain ⟨helements, hunique⟩ := (findsOnly_examine_array (length_le_of_withinLimits hwithin)).mp h
  have hlook : ∀ v ∈ elements, depth + 1 ≤ loaded.maxDepth ∧
      (node.examine loaded (depth + 1) v).FindsOnly fun _ => False := by
    intro v hm
    obtain ⟨hdeep, hclean⟩ := findsOnly_examineGiven.mp (helements v hm)
    have hle := Nat.not_lt.mp hdeep
    exact ⟨hle, hclean hle⟩
  -- The look filled every element, so it compared the filled elements.
  have hfill : (elements.map fun v => (node.examineGiven loaded (depth + 1) v).value) =
      elements.map node.fill := by
    refine List.map_congr_left fun v hm => ?_
    obtain ⟨hle, hclean⟩ := hlook v hm
    rw [examineGiven_of_le hle]
    exact value_examine_eq_fill (hclean.imp fun _ hfalse => hfalse.elim)
  refine ⟨fun v hm => (hlook v hm).2, fun hu => ?_⟩
  rw [← hfill]
  exact hunique hu id

/-- A value with which nothing was wrong in one look has only limits to meet in any
other, whatever the depths and the limits of the two. -/
theorem findsOnly_limits_of_clean (hn : node.WellFormed) {v : Json} (hv : v.WellKeyed)
    {depth : Nat} (h : (node.examine loaded depth v).FindsOnly fun _ => False) (other : Nat) :
    (node.examine limits other v).FindsOnly (· = .limitExceeded) := by
  induction node, v using inductionAlong generalizing depth other with
  | other node v hk =>
    rw [examine_of_not_admits hk, Limits.findsOnly_mismatch] at h
    exact h.1.elim
  | leaf header type allowed v hk =>
    rw [examine_leaf hk] at h ⊢
    exact h.imp fun _ hfalse => hfalse.elim
  | openObject header members =>
    rw [examine_openObject, Limits.findsOnly_carry]
    exact fun _ => rfl
  | object header properties members ih =>
    cases hn with
    | object _ hd hp =>
      have hfields := (findsOnly_examine_object.mp h).1
      refine findsOnly_examine_object.mpr ⟨fun name node hm => ?_, fun name w _ => ?_⟩
      · have hnode := hp name node hm
        refine findsOnly_limits_field ?_ ?_ (hfields name node hm)
        · rintro w (hw | hw)
          · exact hv.fieldValue hw
          · exact (substitute_wellFormed hnode.header hw).1
        · exact fun w hw hclean => ih name node hm w hnode hw hclean (other + 1)
      · exact Limits.findsOnly_carry.mpr fun _ => rfl
  | array header unique items elements ih =>
    cases hn with
    | array _ hi =>
      obtain ⟨helements, hunique⟩ := clean_array h
      have hwell : ∀ w ∈ elements, w.WellKeyed := by
        cases hv with
        | array hwell => exact hwell
      -- An array that is too long now is blamed for its length alone.
      by_cases hl : elements.length ≤ limits.maxArrayLength
      · refine (findsOnly_examine_array hl).mpr ⟨fun w hw => ?_, fun hu _ => ?_⟩
        · rw [findsOnly_examineGiven]
          exact ⟨fun _ => rfl, fun _ => ih w hi (hwell w hw) (helements w hw) (other + 1)⟩
        · exact duplicates_eq_nil_of_filled hi hwell (other + 1) (hunique hu)
      · rw [findsOnly_examine_array_of_lt (Nat.not_le.mp hl)]

end Schema

namespace Catalog

/-- In a stage of an accepted catalog nothing but limits is found at or below the place
of a used default, whatever the candidate and the limits. -/
theorem kind_of_violation_at_default {definition : Json} (hd : definition.WellKeyed)
    {catalog : Catalog} (hcatalog : Catalog.ofJson definition = .ok catalog)
    {category : Category} {typeKey : String} {node : Schema}
    (hstage : catalog.lookup category typeKey = .ok node) (limits : Limits) (candidate : Json) :
    ∀ place ∈ (node.validate limits candidate).defaulted,
      ∀ x ∈ (node.validate limits candidate).violations,
        place <+: x.path → x.kind = .limitExceeded := by
  intro place hplace x hx hbelow
  have hnode := wellFormed_of_lookup hd hcatalog hstage
  obtain ⟨inner, v, hat, hdefault, hmem⟩ := Schema.usesDefault_validate hnode hplace
  have hcontains := Schema.contains_of_at? hat
  have hinner := hnode.of_contains hcontains
  have hclean := violations_default_of_lookup hd hcatalog hstage hcontains hdefault
  obtain ⟨y, hy, rfl⟩ := (hmem x hbelow).mp hx
  exact Schema.findsOnly_limits_of_clean hinner (hinner.header v hdefault).1
    (Checked.findsOnly_false_iff.mpr hclean) _ y hy

/-- Below the used default a value lies too deep, and nothing else is wrong with it. -/
theorem kind_of_violation_at_default_retry :
    let report := retrySchema.validate { maxDepth := 1 } (.object [])
    report.defaulted = [[.key "retry"], [.key "retry", .key "pause"]] ∧
      (report.violations.map fun x => (x.path, x.kind)) =
        [([.key "name"], .missingRequiredField),
          ([.key "retry", .key "attempts"], .limitExceeded)] ∧
      ∀ place ∈ report.defaulted, ∀ x ∈ report.violations,
        place <+: x.path → x.kind = .limitExceeded := by
  intro report
  exact ⟨by decide +kernel, by decide +kernel,
    kind_of_violation_at_default wellKeyed_retryCatalogDefinition ofJson_retryCatalogDefinition
      (show retryCatalog.lookup .source "retry" = .ok retrySchema from rfl) { maxDepth := 1 }
      (.object [])⟩

end Catalog

end PipelineConfig
