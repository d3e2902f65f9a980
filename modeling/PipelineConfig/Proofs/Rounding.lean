import Mathlib.Tactic.Ring
import PipelineConfig.Json.Basic

/-!
# Rounding of integers

Integers compare by the binary64 numbers nearest to them. Rounding to these never
reverses the order of two integers, and an integer below `2 ^ 53` is not rounded at all,
so that it falls together with no other. From there on integers do fall together: the
nearest number is the same for `2 ^ 53` and `2 ^ 53 + 1`.
-/

namespace PipelineConfig

section RoundHalfEven

variable {a b den : Nat}

/-- Rounding goes to the whole part or to the number after it. -/
theorem roundHalfEven_bounds (a den : Nat) :
    a / den ≤ roundHalfEven a den ∧ roundHalfEven a den ≤ a / den + 1 := by
  unfold roundHalfEven
  dsimp only
  split
  · omega
  · split <;> omega

theorem roundHalfEven_mono (h : a ≤ b) :
    roundHalfEven a den ≤ roundHalfEven b den := by
  have hquot : a / den ≤ b / den := Nat.div_le_div_right h
  have hup := (roundHalfEven_bounds a den).2
  have hdown := (roundHalfEven_bounds b den).1
  rcases Nat.eq_or_lt_of_le hquot with heq | hlt
  · have ha := Nat.div_add_mod a den
    have hb := Nat.div_add_mod b den
    rw [heq] at ha
    have hrem : a % den ≤ b % den := by omega
    -- With one whole part, what is left decides.
    unfold roundHalfEven
    dsimp only
    rw [heq]
    split
    · split
      · omega
      · split <;> omega
    · split <;> split <;> first | omega | (split <;> omega)
  · omega

/-- A whole number is not changed. -/
theorem roundHalfEven_mul (hden : 0 < den) (k : Nat) : roundHalfEven (k * den) den = k := by
  unfold roundHalfEven
  dsimp only
  rw [Nat.mul_mod_left, Nat.mul_div_cancel k hden, if_pos (by omega)]

/-- A fraction is rounded alike however it is written. -/
theorem roundHalfEven_mul_mul_right (hden : 0 < b) (a den : Nat) :
    roundHalfEven (a * b) (den * b) = roundHalfEven a den := by
  have hhalf : 2 * (a % den * b) = 2 * (a % den) * b := by ring
  unfold roundHalfEven
  dsimp only
  rw [Nat.mul_div_mul_right a den hden, Nat.mul_mod_mul_right, hhalf]
  simp only [Nat.mul_lt_mul_right hden]

end RoundHalfEven

namespace Binary64

variable {m n : Nat}

theorem log2_mul_two_pow (hn : 0 < n) (k : Nat) : (n * 2 ^ k).log2 = n.log2 + k := by
  rw [Nat.log2_eq_iff (Nat.mul_pos hn (Nat.two_pow_pos k)).ne']
  have hlow := Nat.log2_self_le hn.ne'
  have hhigh := Nat.lt_log2_self (n := n)
  constructor
  · rw [Nat.pow_add]
    exact Nat.mul_le_mul_right _ hlow
  · rw [Nat.add_right_comm, Nat.pow_add]
    exact Nat.mul_lt_mul_of_pos_right hhigh (Nat.two_pow_pos k)

theorem log2_le_log2 (hm : 0 < m) (h : m ≤ n) : m.log2 ≤ n.log2 :=
  (Nat.le_log2 (by omega)).mpr (Nat.le_trans (Nat.log2_self_le hm.ne') h)

/-- The digits of the number nearest to a positive integer, as a whole number. -/
def significand (n : Nat) : Nat := roundHalfEven (n * 2 ^ 52) (2 ^ n.log2)

/-- The rank of the nearest number is made of the integer's magnitude and of the digits. -/
theorem nearestRank_eq (hn : 0 < n) :
    nearestRank n 1 = (n.log2 + 1022) * 2 ^ 52 + significand n := by
  have hpow : ∀ k, Nat.pow 2 k = 2 ^ k := fun _ => rfl
  have hdrop : n.log2 + 1074 - 52 = n.log2 + 1022 := by omega
  have hdigits : roundHalfEven (n * 2 ^ 1074) (2 ^ (n.log2 + 1022)) = significand n := by
    have hnum : n * 2 ^ 1074 = n * 2 ^ 52 * 2 ^ 1022 := by rw [Nat.mul_assoc, ← Nat.pow_add]
    rw [hnum, Nat.pow_add, roundHalfEven_mul_mul_right (Nat.two_pow_pos 1022), significand]
  rw [nearestRank]
  simp only [hpow, Nat.div_one, Nat.one_mul]
  rw [log2_mul_two_pow hn 1074, hdrop, hdigits]

/-- The first digit is one. -/
theorem le_significand (hn : 0 < n) : 2 ^ 52 ≤ significand n := by
  have hwhole : 2 ^ 52 ≤ n * 2 ^ 52 / 2 ^ n.log2 := by
    rw [Nat.le_div_iff_mul_le (Nat.two_pow_pos n.log2), Nat.mul_comm]
    exact Nat.mul_le_mul_right _ (Nat.log2_self_le hn.ne')
  exact Nat.le_trans hwhole (roundHalfEven_bounds _ _).1

theorem significand_le (n : Nat) : significand n ≤ 2 ^ 53 := by
  have hwhole : n * 2 ^ 52 / 2 ^ n.log2 < 2 ^ 53 := by
    rw [Nat.div_lt_iff_lt_mul (Nat.two_pow_pos n.log2)]
    calc n * 2 ^ 52 < 2 ^ (n.log2 + 1) * 2 ^ 52 :=
          Nat.mul_lt_mul_of_pos_right Nat.lt_log2_self (Nat.two_pow_pos 52)
      _ = 2 ^ 53 * 2 ^ n.log2 := by rw [← Nat.pow_add, ← Nat.pow_add]; congr 1; omega
  have hround := (roundHalfEven_bounds (n * 2 ^ 52) (2 ^ n.log2)).2
  rw [significand]
  omega

/-- The digits of a small integer are the integer itself, moved to the left. -/
theorem significand_of_lt (hn : 0 < n) (h : n < 2 ^ 53) :
    significand n = n * 2 ^ (52 - n.log2) := by
  have hlog : n.log2 < 53 := (Nat.log2_lt hn.ne').mpr h
  have hnum : n * 2 ^ 52 = n * 2 ^ (52 - n.log2) * 2 ^ n.log2 := by
    rw [Nat.mul_assoc, ← Nat.pow_add]
    congr 2
    omega
  rw [significand, hnum, roundHalfEven_mul (Nat.two_pow_pos n.log2)]

theorem significand_lt (hn : 0 < n) (h : n < 2 ^ 53) : significand n < 2 ^ 53 := by
  have hlog : n.log2 < 53 := (Nat.log2_lt hn.ne').mpr h
  rw [significand_of_lt hn h]
  calc n * 2 ^ (52 - n.log2) < 2 ^ (n.log2 + 1) * 2 ^ (52 - n.log2) :=
        Nat.mul_lt_mul_of_pos_right Nat.lt_log2_self (Nat.two_pow_pos _)
    _ = 2 ^ 53 := by rw [← Nat.pow_add]; congr 1; omega

@[simp] theorem nearestRank_zero : nearestRank 0 1 = 0 := by decide +kernel

theorem nearestRank_pos (hn : 0 < n) : 0 < nearestRank n 1 := by
  have hdigits := le_significand hn
  rw [nearestRank_eq hn]
  omega

/-- Rounding does not reverse the order. -/
theorem nearestRank_mono (h : m ≤ n) : nearestRank m 1 ≤ nearestRank n 1 := by
  rcases Nat.eq_zero_or_pos m with rfl | hm
  · rw [nearestRank_zero]
    exact Nat.zero_le _
  · have hn : 0 < n := Nat.lt_of_lt_of_le hm h
    have hup := significand_le m
    have hdown := le_significand hn
    rw [nearestRank_eq hm, nearestRank_eq hn]
    rcases Nat.eq_or_lt_of_le (log2_le_log2 hm h) with heq | hlt
    · have hdigits : significand m ≤ significand n := by
        rw [significand, significand, heq]
        exact roundHalfEven_mono (Nat.mul_le_mul_right _ h)
      rw [heq]
      omega
    · omega

/-- A small integer is rounded below every greater one. -/
theorem nearestRank_lt (h : m < n) (hm : m < 2 ^ 53) : nearestRank m 1 < nearestRank n 1 := by
  rcases Nat.eq_zero_or_pos m with rfl | hpos
  · rw [nearestRank_zero]
    exact nearestRank_pos h
  · have hn : 0 < n := Nat.lt_trans hpos h
    have hup := significand_lt hpos hm
    have hdown := le_significand hn
    rw [nearestRank_eq hpos, nearestRank_eq hn]
    rcases Nat.eq_or_lt_of_le (log2_le_log2 hpos h.le) with heq | hlt
    · -- Both integers have as many digits, so the greater one is small too.
      have hsmall : n < 2 ^ 53 := by
        have hlog : m.log2 < 53 := (Nat.log2_lt hpos.ne').mpr hm
        rw [heq] at hlog
        exact (Nat.log2_lt hn.ne').mp hlog
      have hdigits : significand m < significand n := by
        rw [significand_of_lt hpos hm, significand_of_lt hn hsmall, heq]
        exact Nat.mul_lt_mul_of_pos_right h (Nat.two_pow_pos _)
      rw [heq]
      omega
    · omega

/-- A small integer is rounded to a number of its own. -/
theorem nearestRank_ne (hne : m ≠ n) (hm : m < 2 ^ 53) : nearestRank m 1 ≠ nearestRank n 1 := by
  rcases Nat.lt_or_gt_of_ne hne with hlt | hgt
  · have hrank := nearestRank_lt hlt hm
    omega
  · have hrank := nearestRank_lt hgt (Nat.lt_trans hgt hm)
    omega

end Binary64

namespace Number

open Binary64

variable {m n : Int}

theorem order_of_nonneg (h : 0 ≤ n) : (integer n).order = nearestRank n.natAbs 1 := by
  rw [order, if_neg (by omega)]

theorem order_of_neg (h : n < 0) : (integer n).order = -(nearestRank n.natAbs 1 : Int) := by
  rw [order, if_pos h]

/-- Integers compare as they are, or fall together. -/
theorem order_mono (h : m ≤ n) : (integer m).order ≤ (integer n).order := by
  rcases Int.lt_or_le m 0 with hm | hm
  · rcases Int.lt_or_le n 0 with hn | hn
    · have hrank : nearestRank n.natAbs 1 ≤ nearestRank m.natAbs 1 := nearestRank_mono (by omega)
      rw [order_of_neg hm, order_of_neg hn]
      omega
    · rw [order_of_neg hm, order_of_nonneg hn]
      omega
  · have hrank : nearestRank m.natAbs 1 ≤ nearestRank n.natAbs 1 := nearestRank_mono (by omega)
    rw [order_of_nonneg hm, order_of_nonneg (by omega)]
    omega

/-- What compares as smaller is smaller. -/
theorem lt_of_order_lt (h : (integer m).order < (integer n).order) : m < n := by
  refine Int.not_le.mp fun hle => ?_
  have hback := order_mono hle
  omega

/-- An integer compares as smaller exactly if it is smaller and does not fall together
with the other. -/
theorem order_lt_iff :
    (integer m).order < (integer n).order ↔ m < n ∧ (integer m).order ≠ (integer n).order := by
  constructor
  · intro h
    exact ⟨lt_of_order_lt h, by omega⟩
  · rintro ⟨h, hne⟩
    have hle := order_mono h.le
    omega

/-- A small integer falls together with no other. -/
theorem order_ne (hne : m ≠ n) (h : m.natAbs < 2 ^ 53) :
    (integer m).order ≠ (integer n).order := by
  rcases Int.lt_or_le m 0 with hm | hm
  · rcases Int.lt_or_le n 0 with hn | hn
    · have hrank : nearestRank m.natAbs 1 ≠ nearestRank n.natAbs 1 :=
        nearestRank_ne (by omega) h
      rw [order_of_neg hm, order_of_neg hn]
      omega
    · have hpos : 0 < nearestRank m.natAbs 1 := nearestRank_pos (by omega)
      rw [order_of_neg hm, order_of_nonneg hn]
      omega
  · rcases Int.lt_or_le n 0 with hn | hn
    · have hpos : 0 < nearestRank n.natAbs 1 := nearestRank_pos (by omega)
      rw [order_of_nonneg hm, order_of_neg hn]
      omega
    · have hrank : nearestRank m.natAbs 1 ≠ nearestRank n.natAbs 1 :=
        nearestRank_ne (by omega) h
      rw [order_of_nonneg hm, order_of_nonneg hn]
      omega

end Number

end PipelineConfig
