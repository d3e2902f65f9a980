import Mathlib.Data.Set.Card
import PipelineConfig.Proofs.VisitedNodes

/-!
# Different elements

On well keyed values sameness is an equivalence, so that the first element of a class stands
for it and only the others repeat an earlier one. The main statement is that every visit to
an array whose elements must not repeat reports exactly these others, compared as they are
left and each with the first of its class.
-/

namespace PipelineConfig

variable {elements : List Json} {i j : Nat}

/-- The values in the list that are the same as the given one. -/
def sameAs (elements : List Json) (v : Json) : Set Json := {w | w ∈ elements ∧ v.same w = true}

/-- The number of different values in the list, where same ones are counted once. -/
noncomputable def distinctValues (elements : List Json) : Nat :=
  Set.ncard {c | ∃ v ∈ elements, c = sameAs elements v}

/-- The elements that repeat no earlier one. -/
def firsts (elements : List Json) : List Nat :=
  (List.range elements.length).filter fun i => i ∉ (repeats elements).map Prod.fst

theorem mem_firsts_iff : i ∈ firsts elements ↔ ∃ v, elements[i]? = some v ∧
    ∀ j u, j < i → elements[j]? = some u → u.same v = false := by
  rw [firsts, List.mem_filter, List.mem_range, decide_eq_true_iff, mem_keys_repeats_iff]
  constructor
  · rintro ⟨hi, hnone⟩
    refine ⟨elements[i], List.getElem?_eq_getElem hi, fun j u hji hu => ?_⟩
    exact Bool.eq_false_iff.mpr fun hs =>
      hnone ⟨j, u, elements[i], hji, hu, List.getElem?_eq_getElem hi, hs⟩
  · rintro ⟨v, hv, hdiffer⟩
    refine ⟨(List.getElem?_eq_some_iff.mp hv).1, ?_⟩
    rintro ⟨j, u, w, hji, hu, hw, hs⟩
    rw [hv] at hw
    cases hw
    rw [hdiffer j u hji hu] at hs
    cases hs

/-- The values in the list that are the same as its element of the index. -/
def sameAt (elements : List Json) (i : Nat) : Set Json :=
  {w | w ∈ elements ∧ ∃ v, elements[i]? = some v ∧ v.same w = true}

theorem sameAt_eq {v : Json} (hv : elements[i]? = some v) :
    sameAt elements i = sameAs elements v := by
  ext w
  refine and_congr_right fun _ => ⟨?_, fun hs => ⟨v, hv, hs⟩⟩
  rintro ⟨u, hu, hs⟩
  rw [hv] at hu
  cases hu
  exact hs

section Sameness

variable (h : ∀ v ∈ elements, v.WellKeyed)

include h

/-- What an element repeats first repeats nothing itself. -/
theorem mem_firsts_of_mem_repeats (hm : (i, j) ∈ repeats elements) : j ∈ firsts elements := by
  obtain ⟨v, hv, ⟨hji, u, hu, hs⟩, hleast⟩ := mem_repeats_iff.mp hm
  have hwell : ∀ {k : Nat} {w : Json}, elements[k]? = some w → w.WellKeyed :=
    fun hw => h _ (List.mem_of_getElem? hw)
  refine mem_firsts_iff.mpr ⟨u, hu, fun k w hkj hw => Bool.eq_false_iff.mpr fun hsame => ?_⟩
  have hwv : w.same v = true := by
    rw [(hwell hw).same_congr (hwell hu) (hwell hv) hsame, hs]
  have hle : j ≤ k := hleast ⟨hkj.trans hji, w, hw, hwv⟩
  omega

theorem sameAs_eq {u v : Json} (hu : u ∈ elements) (hv : v ∈ elements) (hs : u.same v = true) :
    sameAs elements u = sameAs elements v := by
  ext w
  refine and_congr_right fun hw => ?_
  rw [(h u hu).same_congr (h v hv) (h w hw) hs]

/-- Elements that repeat nothing are the same as no earlier one. -/
theorem sameAt_ne {k : Nat} (hik : i < k) (hk : k ∈ firsts elements) :
    sameAt elements i ≠ sameAt elements k := by
  obtain ⟨w, hw, hdiffer⟩ := mem_firsts_iff.mp hk
  have hm := List.mem_of_getElem? hw
  intro heq
  have hin : w ∈ sameAt elements k := ⟨hm, w, hw, (h w hm).same_refl⟩
  rw [← heq] at hin
  obtain ⟨-, v, hv, hs⟩ := hin
  rw [hdiffer i v hik hv] at hs
  cases hs

theorem injOn_sameAt : Set.InjOn (sameAt elements) {i | i ∈ firsts elements} := by
  intro i hi k hk heq
  obtain hlt | rfl | hlt := Nat.lt_trichotomy i k
  · exact absurd heq (sameAt_ne h hlt hk)
  · rfl
  · exact absurd heq.symm (sameAt_ne h hlt hi)

/-- Every value is the same as an element that repeats nothing. -/
theorem exists_first {v : Json} (hv : v ∈ elements) :
    ∃ i ∈ firsts elements, sameAt elements i = sameAs elements v := by
  obtain ⟨i, hi⟩ := List.getElem?_of_mem hv
  by_cases hfirst : i ∈ firsts elements
  · exact ⟨i, hfirst, sameAt_eq hi⟩
  · have hkey : i ∈ (repeats elements).map Prod.fst := by
      by_contra hkey
      refine hfirst (List.mem_filter.mpr ⟨?_, decide_eq_true hkey⟩)
      exact List.mem_range.mpr (List.getElem?_eq_some_iff.mp hi).1
    obtain ⟨⟨_, j⟩, hm, rfl⟩ := List.mem_map.mp hkey
    obtain ⟨w, hw, ⟨-, u, hu, hs⟩, -⟩ := mem_repeats_iff.mp hm
    rw [hi] at hw
    cases hw
    refine ⟨j, mem_firsts_of_mem_repeats h hm, (sameAt_eq hu).trans ?_⟩
    exact sameAs_eq h (List.mem_of_getElem? hu) hv hs

/-- As many elements repeat nothing as there are different values. -/
theorem length_firsts : (firsts elements).length = distinctValues elements := by
  have hclasses : {c | ∃ v ∈ elements, c = sameAs elements v} =
      sameAt elements '' {i | i ∈ firsts elements} := by
    ext c
    constructor
    · rintro ⟨v, hv, rfl⟩
      exact exists_first h hv
    · rintro ⟨i, hi, rfl⟩
      obtain ⟨v, hv, -⟩ := mem_firsts_iff.mp hi
      exact ⟨v, List.mem_of_getElem? hv, sameAt_eq hv⟩
  have hnodup : (firsts elements).Nodup := List.nodup_range.filter _
  have hcount : Set.ncard {i | i ∈ firsts elements} = (firsts elements).length := by
    rw [← List.coe_toFinset, Set.ncard_coe_finset, List.toFinset_card_of_nodup hnodup]
  rw [distinctValues, hclasses, (injOn_sameAt h).ncard_image, hcount]

end Sameness

/-- The pairs name the elements that repeat an earlier one, each with the first that it
repeats. -/
structure NamesRepeats (elements : List Json) (pairs : List (Nat × Nat)) : Prop where
  /-- Elements are the same exactly if they are equal up to the order of members. -/
  same_iff_equal : ∀ u ∈ elements, ∀ v ∈ elements, u.same v = true ↔ u.Equal v
  /-- Sameness is an equivalence of elements. -/
  equivalence : Equivalence fun u v : {v // v ∈ elements} => u.1.same v.1 = true
  /-- The elements are named in their order. -/
  ascending : pairs.Pairwise fun r s => r.1 < s.1
  /-- An element is named exactly if it is the same as an earlier one. -/
  named_iff : ∀ i, i ∈ pairs.map Prod.fst ↔
    ∃ j u v, j < i ∧ elements[j]? = some u ∧ elements[i]? = some v ∧ u.same v = true
  /-- It is named with the first such one. -/
  first : ∀ i j, (i, j) ∈ pairs → ∃ v, elements[i]? = some v ∧
    IsLeast {k | k < i ∧ ∃ u, elements[k]? = some u ∧ u.same v = true} j
  /-- That one is not named itself. -/
  first_not_named : ∀ i j, (i, j) ∈ pairs → j ∉ pairs.map Prod.fst
  /-- As many elements are not named as there are different values. -/
  count : ((List.range elements.length).filter fun i => i ∉ pairs.map Prod.fst).length =
    distinctValues elements

theorem namesRepeats (h : ∀ v ∈ elements, v.WellKeyed) :
    NamesRepeats elements (repeats elements) where
  same_iff_equal u hu v hv := (h u hu).same_iff_equal (h v hv)
  equivalence := Json.equivalence_same h
  ascending := pairwise_repeats elements
  named_iff _ := mem_keys_repeats_iff
  first _ _ := mem_repeats_iff.mp
  first_not_named i j hm := by
    have hfirst := mem_firsts_of_mem_repeats h hm
    rw [firsts, List.mem_filter, decide_eq_true_iff] at hfirst
    exact hfirst.2
  count := length_firsts h

namespace Schema

variable {limits : Limits} {node items : Schema} {candidate : Json} {path : Path}
  {header : Header}

/-- What is found in an array whose elements must not repeat, seen from the root: what is
found in the elements, and then the repeated ones. -/
theorem below_violations_array (hl : elements.length ≤ limits.maxArrayLength) (depth : Nat) :
    let look := items.examineGiven limits (depth + 1)
    ((array header true items).examine limits depth (.array elements)).violations.map
        (Violation.below path) =
      (elements.zipIdx.flatMap fun p =>
        (look p.1).violations.map (Violation.below (path ++ [.index p.2]))) ++
      (repeats (elements.map fun v => (look v).value)).map fun r =>
        ⟨path ++ [.index r.1], .duplicateItem, "unique items",
          "duplicate of item " ++ toString r.2⟩ := by
  intro look
  rw [violations_examine_array hl, List.map_append, List.map_flatMap, if_pos rfl,
    duplicates_eq_map_repeats, List.map_map]
  congr 1
  refine List.flatMap_congr fun p _ => ?_
  rw [List.map_map]
  exact List.map_congr_left fun x _ => x.below_under path (.index p.2)

/-- Every visit to an array whose elements must not repeat reports, after all that it finds
in the elements, those that repeat an earlier one as they are left. -/
theorem reports_repeats (hn : node.WellKeyed) (hc : candidate.WellKeyed)
    (hvisit : node.Walks limits candidate path (.array header true items) (.array elements))
    (hl : elements.length ≤ limits.maxArrayLength) :
    let look := items.examineGiven limits (path.length + 1)
    let left := elements.map fun v => (look v).value
    let found := (array header true items).examine limits path.length (.array elements)
    found.value = .array left ∧
    (∃ pairs, NamesRepeats left pairs ∧
      found.violations.map (Violation.below path) =
        (elements.zipIdx.flatMap fun p =>
          (look p.1).violations.map (Violation.below (path ++ [.index p.2]))) ++
        pairs.map fun r => ⟨path ++ [.index r.1], .duplicateItem, "unique items",
          "duplicate of item " ++ toString r.2⟩) ∧
    found.violations.map (Violation.below path) <:+:
      (node.validate limits candidate).violations := by
  intro look left found
  obtain ⟨hinner, hwell⟩ := hvisit.wellKeyed hn hc
  have hleft : ∀ v ∈ left, v.WellKeyed := by
    intro v hv
    obtain ⟨u, hu, rfl⟩ := List.mem_map.mp hv
    cases hwell with
    | array hvalues =>
      exact wellKeyed_examineGiven (hvalues u hu) (hinner.items.examine (hvalues u hu))
  exact ⟨value_examine_array hl, ⟨repeats left, namesRepeats hleft, below_violations_array hl _⟩,
    hvisit.infix_violations⟩

end Schema

/-- A node, which listens on a port. -/
def nodeForm : Schema :=
  .object {} [("port", .leaf { default := some (.number (.integer 9042)) } (.integer {}) [])]

/-- Nodes that must not repeat. -/
def nodesSchema : Schema := .object {} [("nodes", .array {} true nodeForm)]

theorem wellFormed_nodesSchema : nodesSchema.WellFormed := by
  have hplain : Header.WellFormed {} := fun v hv => by cases hv
  have hport : Header.WellFormed { default := some (.number (.integer 9042)) } := by
    intro v hv
    cases hv
    exact ⟨.number _, rfl⟩
  have hnode : nodeForm.WellFormed := by
    refine .object hplain (List.nodup_singleton _) fun name node hm => ?_
    cases List.mem_singleton.mp hm
    exact .leaf hport rfl
  refine .object hplain (List.nodup_singleton _) fun name node hm => ?_
  cases List.mem_singleton.mp hm
  exact .array hplain hnode

/-- Nodes of which the third, the fifth and the sixth repeat earlier ones as they are left. -/
def repeatedNodes : List Json :=
  [.object [],
    .object [("rack", .string "a"), ("zone", .string "b")],
    .object [("port", .number (.integer 9042))],
    .null,
    .object [("zone", .string "b"), ("port", .null), ("rack", .string "a")],
    .object [("port", .null)]]

/-- The last of the nodes is reported as a repetition of the first, although it repeats the
third as well. -/
theorem reports_repeats_nodes :
    ⟨[.key "nodes", .index 5], .duplicateItem, "unique items", "duplicate of item 0"⟩ ∈
      (nodesSchema.validate {} (.object [("nodes", .array repeatedNodes)])).violations := by
  have hvisit : nodesSchema.Walks {} (.object [("nodes", .array repeatedNodes)]) [.key "nodes"]
      (.array {} true nodeForm) (.array repeatedNodes) :=
    ⟨_, rfl, .given List.mem_cons_self rfl (by decide) (.self ..)⟩
  obtain ⟨-, ⟨pairs, hnames, hfound⟩, hblock⟩ :=
    Schema.reports_repeats wellFormed_nodesSchema.wellKeyed (by decide) hvisit (by decide)
  have hnamed : 5 ∈ pairs.map Prod.fst :=
    (hnames.named_iff 5).mpr ⟨0, _, _, by decide, rfl, rfl, by decide +kernel⟩
  obtain ⟨⟨_, j⟩, hm, rfl⟩ := List.mem_map.mp hnamed
  -- What it is reported with comes no later than anything that is the same.
  obtain ⟨v, hv, -, hleast⟩ := hnames.first 5 j hm
  obtain rfl := Option.some.inj hv
  have hj : j = 0 := Nat.le_zero.mp (hleast ⟨by decide, _, rfl, by decide +kernel⟩)
  subst hj
  refine hblock.subset ?_
  rw [hfound]
  exact List.mem_append_right _ (List.mem_map.mpr ⟨(5, 0), hm, rfl⟩)

end PipelineConfig
