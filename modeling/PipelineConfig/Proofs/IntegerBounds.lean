import PipelineConfig.Proofs.Defects
import PipelineConfig.Proofs.Rounding

/-!
# Bounds on integers

A leaf compares an integer with its bounds after both are rounded to binary64 numbers.
An integer within the bounds is never blamed. One outside of them is blamed exactly if
it does not fall together with the bound that it passes, so that bounds are enforced as
they are written wherever the integer or its bounds are below `2 ^ 53`.
-/

namespace PipelineConfig

/-- Bounds that are written as integers, as far as they are written. -/
def Bounds.ofIntegers (least greatest : Option Int) : Bounds :=
  ⟨least.map .integer, greatest.map .integer⟩

/-- The integer lies below the least or above the greatest, without any rounding. -/
def PassesBound (least greatest : Option Int) (v : Int) : Prop :=
  (∃ m, least = some m ∧ v < m) ∨ ∃ m, greatest = some m ∧ m < v

namespace Schema

variable {type : Leaf} {least greatest : Option Int}

theorem admits_integer (hk : type.kind.isNumeric = true) (v : Int) :
    type.kind.admits (.number (.integer v)) = true := by
  cases type with
  | integer | number => rfl
  | string | boolean => cases hk

/-- A number in its place is out of range if it compares as outside of a bound. -/
theorem exists_outOfRange_iff (limits : Limits) (depth : Nat) (header : Header)
    (allowed : List Json) {n : Number} (hk : type.kind.admits (.number n) = true) :
    (∃ x ∈ ((leaf header type allowed).examine limits depth (.number n)).violations,
      x.kind = .outOfRange) ↔
      (∃ m, type.bounds.minimum = some m ∧ n.order < m.order) ∨
        ∃ m, type.bounds.maximum = some m ∧ m.order < n.order := by
  rw [examine_leaf hk]
  constructor
  · rintro ⟨x, hx, hkind⟩
    rcases List.mem_append.mp hx with hx | hx
    · rw [kind_of_mem_notAllowed hx] at hkind
      cases hkind
    · obtain ⟨-, m, he, hbound⟩ := mem_sites_outOfBounds.mp (List.mem_map_of_mem hx)
      cases he
      exact hbound
  · intro hbound
    have hsite : (([], .outOfRange) : Path × Violation.Kind) ∈
        (outOfBounds type.bounds (.number n)).map Violation.site :=
      mem_sites_outOfBounds.mpr ⟨⟨rfl, rfl⟩, n, rfl, hbound⟩
    obtain ⟨x, hx, he⟩ := List.mem_map.mp hsite
    exact ⟨x, List.mem_append_right _ hx, congrArg Prod.snd he⟩

/-- An integer is out of range if it passes a bound that it does not fall together with. -/
theorem exists_outOfRange_integer_iff (limits : Limits) (depth : Nat) (header : Header)
    (allowed : List Json) (v : Int) (hk : type.kind.isNumeric = true)
    (hb : type.bounds = .ofIntegers least greatest) :
    (∃ x ∈ ((leaf header type allowed).examine limits depth (.number (.integer v))).violations,
      x.kind = .outOfRange) ↔
      (∃ m, least = some m ∧ v < m ∧ (Number.integer v).order ≠ (Number.integer m).order) ∨
        ∃ m, greatest = some m ∧ m < v ∧
          (Number.integer m).order ≠ (Number.integer v).order := by
  have hbound : ∀ bound : Option Int, ∀ p : Number → Prop,
      (∃ m, bound.map Number.integer = some m ∧ p m) ↔ ∃ m, bound = some m ∧ p (.integer m) := by
    intro bound p
    cases bound <;> simp
  rw [exists_outOfRange_iff limits depth header allowed (admits_integer hk v), hb]
  refine or_congr ((hbound least _).trans ?_) ((hbound greatest _).trans ?_)
  · exact exists_congr fun m => and_congr_right fun _ => Number.order_lt_iff
  · exact exists_congr fun m => and_congr_right fun _ => Number.order_lt_iff

/-- Integers within their bounds are never out of range, and those outside are exactly if
they do not fall together with the bound. Below `2 ^ 53` bounds are enforced as written. -/
theorem integer_outOfRange_iff (limits : Limits) (depth : Nat) (header : Header)
    (allowed : List Json) (v : Int) (hk : type.kind.isNumeric = true)
    (hb : type.bounds = .ofIntegers least greatest) :
    let found := ((leaf header type allowed).examine limits depth (.number (.integer v))).violations
    ((∃ x ∈ found, x.kind = .outOfRange) ↔
      (∃ m, least = some m ∧ v < m ∧ (Number.integer v).order ≠ (Number.integer m).order) ∨
        ∃ m, greatest = some m ∧ m < v ∧
          (Number.integer m).order ≠ (Number.integer v).order) ∧
    ((v.natAbs < 2 ^ 53 ∨ ∀ m, least = some m ∨ greatest = some m → m.natAbs < 2 ^ 53) →
      ((∃ x ∈ found, x.kind = .outOfRange) ↔ PassesBound least greatest v)) := by
  intro found
  have hreported := exists_outOfRange_integer_iff limits depth header allowed v hk hb
  refine ⟨hreported, fun hsmall => hreported.trans ?_⟩
  have happart : ∀ m, (least = some m ∨ greatest = some m) → v ≠ m →
      (Number.integer v).order ≠ (Number.integer m).order := by
    intro m hm hne
    rcases hsmall with hv | hbounds
    · exact Number.order_ne hne hv
    · exact (Number.order_ne hne.symm (hbounds m hm)).symm
  constructor
  · rintro (⟨m, hm, hlt, -⟩ | ⟨m, hm, hlt, -⟩)
    · exact .inl ⟨m, hm, hlt⟩
    · exact .inr ⟨m, hm, hlt⟩
  · rintro (⟨m, hm, hlt⟩ | ⟨m, hm, hlt⟩)
    · exact .inl ⟨m, hm, hlt, happart m (.inl hm) (by omega)⟩
    · exact .inr ⟨m, hm, hlt, (happart m (.inr hm) (by omega)).symm⟩

/-- A count of zero is below a minimum of one, and is blamed. -/
theorem integer_outOfRange_zero :
    ∃ x ∈ ((leaf {} (.integer (.ofIntegers (some 1) none)) []).examine {} 0
      (.number (.integer 0))).violations, x.kind = .outOfRange := by
  have hnumeric : (Leaf.integer (.ofIntegers (some 1) none)).kind.isNumeric = true := rfl
  have hzero := integer_outOfRange_iff {} 0 {} [] 0 hnumeric rfl
  exact (hzero.2 (.inl (by decide))).mpr (.inl ⟨1, rfl, by decide⟩)

/-- One more than a maximum of `2 ^ 53` is outside, and is not blamed. -/
theorem integer_in_range_above_maximum :
    let greatest : Int := 9007199254740992
    let v : Int := 9007199254740993
    PassesBound none (some greatest) v ∧
      ¬ ∃ x ∈ ((leaf {} (.integer (.ofIntegers none (some greatest))) []).examine {} 0
        (.number (.integer v))).violations, x.kind = .outOfRange := by
  refine ⟨.inr ⟨9007199254740992, rfl, by decide⟩, ?_⟩
  decide +kernel

end Schema

end PipelineConfig
