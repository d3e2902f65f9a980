import Mathlib.Order.Bounds.Defs
import Mathlib.Order.WellFounded
import PipelineConfig.Validation.Examine

/-!
# Elements that repeat an earlier one

The elements of an array that must not repeat are each compared with all earlier ones. An
element that is the same as one of these is reported with the first of them.
-/

namespace PipelineConfig

/-- The first place in a beginning of the list where the test succeeds. -/
theorem findIdx?_take_eq_some_iff {α : Type} {l : List α} {p : α → Bool} {i j : Nat} :
    (l.take i).findIdx? p = some j ↔
      IsLeast {k | k < i ∧ ∃ a, l[k]? = some a ∧ p a = true} j := by
  rw [List.findIdx?_eq_some_iff_getElem]
  constructor
  · rintro ⟨hlt, hp, hfirst⟩
    rw [List.length_take, Nat.lt_min] at hlt
    rw [List.getElem_take] at hp
    refine ⟨⟨hlt.1, l[j], List.getElem?_eq_getElem hlt.2, hp⟩, ?_⟩
    rintro k ⟨-, a, ha, hpa⟩
    refine Nat.not_lt.mp fun hkj => hfirst k hkj ?_
    obtain ⟨hk, rfl⟩ := List.getElem?_eq_some_iff.mp ha
    rwa [List.getElem_take]
  · rintro ⟨⟨hji, a, ha, hpa⟩, hleast⟩
    obtain ⟨hj, rfl⟩ := List.getElem?_eq_some_iff.mp ha
    refine ⟨by rw [List.length_take]; omega, by rwa [List.getElem_take], fun k hkj hpk => ?_⟩
    rw [List.getElem_take] at hpk
    have hle : j ≤ k := hleast ⟨by omega, _, List.getElem?_eq_getElem (by omega), hpk⟩
    omega

/-- The elements that repeat an earlier one, each with the first that it repeats. -/
def repeats (elements : List Json) : List (Nat × Nat) :=
  elements.zipIdx.filterMap fun (v, i) =>
    ((elements.take i).findIdx? fun earlier => earlier.same v).map fun j => (i, j)

variable {elements : List Json} {i j : Nat}

theorem duplicates_eq_map_repeats (elements : List Json) :
    duplicates elements = (repeats elements).map fun r => .duplicateItem [.index r.1] r.2 := by
  rw [repeats, List.map_filterMap]
  simp only [Option.map_map]
  rfl

theorem mem_repeats_iff : (i, j) ∈ repeats elements ↔ ∃ v, elements[i]? = some v ∧
    IsLeast {k | k < i ∧ ∃ u, elements[k]? = some u ∧ u.same v = true} j := by
  rw [repeats, List.mem_filterMap]
  constructor
  · rintro ⟨⟨v, k⟩, hm, hr⟩
    obtain ⟨first, hfirst, he⟩ := Option.map_eq_some_iff.mp hr
    cases he
    exact ⟨v, List.mem_zipIdx_iff_getElem?.mp hm, findIdx?_take_eq_some_iff.mp hfirst⟩
  · rintro ⟨v, hv, hleast⟩
    refine ⟨(v, i), List.mem_zipIdx_iff_getElem?.mpr hv, ?_⟩
    exact Option.map_eq_some_iff.mpr ⟨j, findIdx?_take_eq_some_iff.mpr hleast, rfl⟩

theorem mem_keys_repeats_iff : i ∈ (repeats elements).map Prod.fst ↔
    ∃ j u v, j < i ∧ elements[j]? = some u ∧ elements[i]? = some v ∧ u.same v = true := by
  constructor
  · intro h
    obtain ⟨⟨k, j⟩, hm, rfl⟩ := List.mem_map.mp h
    obtain ⟨v, hv, ⟨hji, u, hu, hs⟩, -⟩ := mem_repeats_iff.mp hm
    exact ⟨j, u, v, hji, hu, hv, hs⟩
  · rintro ⟨j, u, v, hji, hu, hv, hs⟩
    have hsome : {k | k < i ∧ ∃ u, elements[k]? = some u ∧ u.same v = true}.Nonempty :=
      ⟨j, hji, u, hu, hs⟩
    obtain ⟨first, hfirst, hmin⟩ := wellFounded_lt.has_min _ hsome
    refine List.mem_map.mpr ⟨(i, first), mem_repeats_iff.mpr ⟨v, hv, hfirst, ?_⟩, rfl⟩
    exact fun k hk => Nat.not_lt.mp (hmin k hk)

theorem pairwise_repeats (elements : List Json) :
    (repeats elements).Pairwise fun r s => r.1 < s.1 := by
  have hindices : elements.zipIdx.Pairwise fun p q => p.2 < q.2 := by
    rw [← List.pairwise_map (f := Prod.snd), List.zipIdx_map_snd]
    exact List.pairwise_lt_range'
  refine List.Pairwise.filterMap _ ?_ hindices
  rintro p q hlt r hr s hs
  obtain ⟨_, -, rfl⟩ := Option.map_eq_some_iff.mp hr
  obtain ⟨_, -, rfl⟩ := Option.map_eq_some_iff.mp hs
  exact hlt

end PipelineConfig
