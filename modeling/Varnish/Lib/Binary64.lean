import Mathlib.Data.Int.Log
import Mathlib.Data.Rat.Floor
import Mathlib.Tactic.Linarith
import Mathlib.Tactic.Positivity
import Mathlib.Tactic.Ring

/-!
# Varnish.Lib.Binary64 — rounding to doubles

The `double` that is nearest to a rational number, in the middle of two the one with the even mantissa.  Mantissas have 53 bits; there is no
bound of the exponents.

* `nearest`: the nearest whole number.  `ulp`: the distance of the doubles around a number.  `rnd`: the nearest double.
* `rnd_error`: the error is at most `2^-53` of the number.
* `rnd_of_mantissa`: a number with a mantissa of 53 bits is a double.  `rnd_rnd`: so is what was rounded.
* `rnd_mono`: rounding keeps the order.
* `rnd_eq`: rounding with a known exponent.
-/

namespace Varnish.Lib.Binary64

/-! ## Whole numbers -/

section Nearest

variable {x y : ℚ}

/-- The nearest whole number, in the middle of two the even one. -/
def nearest (x : ℚ) : ℤ :=
  if x - ⌊x⌋ < 1 / 2 then ⌊x⌋ else if 1 / 2 < x - ⌊x⌋ then ⌊x⌋ + 1 else if ⌊x⌋ % 2 = 0 then ⌊x⌋ else ⌊x⌋ + 1

theorem nearest_error (x : ℚ) : x - 1 / 2 ≤ nearest x ∧ (nearest x : ℚ) ≤ x + 1 / 2 := by
  have hle := Int.floor_le x
  have hlt := Int.lt_floor_add_one x
  rw [nearest]
  split
  · constructor <;> linarith
  · split
    · push_cast
      constructor <;> linarith
    · split
      · constructor <;> linarith
      · push_cast
        constructor <;> linarith

theorem nearest_eq {n : ℤ} (h₁ : (n : ℚ) - 1 / 2 < x) (h₂ : x < n + 1 / 2) : nearest x = n := by
  obtain ⟨hlo, hhi⟩ := nearest_error x
  have hlt : (n : ℚ) < nearest x + 1 := by linarith
  have hgt : (nearest x : ℚ) < n + 1 := by linarith
  exact le_antisymm (Int.lt_add_one_iff.mp (by exact_mod_cast hgt)) (Int.lt_add_one_iff.mp (by exact_mod_cast hlt))

theorem nearest_intCast (n : ℤ) : nearest (n : ℚ) = n := by
  rw [nearest, Int.floor_intCast, sub_self, if_pos (by norm_num)]

theorem nearest_mono (h : x ≤ y) : nearest x ≤ nearest y := by
  by_contra hlt
  have hone : (nearest y : ℚ) + 1 ≤ nearest x := by exact_mod_cast not_le.mp hlt
  have hx := (nearest_error x).2
  have hy := (nearest_error y).1
  have heq : x = y := by linarith
  exact hlt (le_of_eq (congrArg nearest heq))

end Nearest

/-! ## Doubles -/

section Round

variable {x y : ℚ}

/-- The distance of the doubles from the power of two below a number to the next one. -/
def ulp (x : ℚ) : ℚ := 2 ^ (Int.log 2 |x| - 52)

/-- The nearest double. -/
def rnd (x : ℚ) : ℚ := nearest (x / ulp x) * ulp x

theorem ulp_pos (x : ℚ) : 0 < ulp x := zpow_pos two_pos _

theorem mul_ulp (x : ℚ) (k : ℕ) : (2 : ℚ) ^ k * ulp x = 2 ^ (Int.log 2 |x| + (k - 52)) := by
  rw [ulp, ← zpow_natCast, ← zpow_add₀ two_ne_zero]
  congr 1
  omega

/-- The mantissa of a number has 53 bits in front of the point. -/
theorem mantissa_bounds (hx : 0 < x) : 2 ^ 52 ≤ x / ulp x ∧ x / ulp x < 2 ^ 53 := by
  have hle := Int.zpow_log_le_self one_lt_two hx
  have hlt := Int.lt_zpow_succ_log_self one_lt_two x
  have h52 := mul_ulp x 52
  have h53 := mul_ulp x 53
  rw [abs_of_pos hx] at h52 h53
  rw [le_div_iff₀ (ulp_pos x), div_lt_iff₀ (ulp_pos x), h52, h53]
  exact ⟨by simpa using hle, by simpa using hlt⟩

theorem rnd_zero : rnd 0 = 0 := by
  have h := nearest_intCast 0
  rw [Int.cast_zero] at h
  rw [rnd, zero_div, h, Int.cast_zero, zero_mul]

/-- The error is at most `2^-53` of the number. -/
theorem rnd_error (hx : 0 ≤ x) : x * (1 - 1 / 2 ^ 53) ≤ rnd x ∧ rnd x ≤ x * (1 + 1 / 2 ^ 53) := by
  rcases hx.eq_or_lt with rfl | hx
  · rw [rnd_zero, zero_mul, zero_mul]
    exact ⟨le_refl 0, le_refl 0⟩
  · have hu := ulp_pos x
    have hbound := (mantissa_bounds hx).1
    rw [le_div_iff₀ hu] at hbound
    obtain ⟨hlo, hhi⟩ := nearest_error (x / ulp x)
    have hxu : x / ulp x * ulp x = x := div_mul_cancel₀ x hu.ne'
    have hlo' := mul_le_mul_of_nonneg_right hlo hu.le
    have hhi' := mul_le_mul_of_nonneg_right hhi hu.le
    rw [sub_mul, hxu] at hlo'
    rw [add_mul, hxu] at hhi'
    rw [rnd]
    constructor <;> linarith

theorem rnd_nonneg (hx : 0 ≤ x) : 0 ≤ rnd x :=
  le_trans (mul_nonneg hx (by norm_num)) (rnd_error hx).1

theorem rnd_pos (hx : 0 < x) : 0 < rnd x :=
  lt_of_lt_of_le (mul_pos hx (by norm_num)) (rnd_error hx.le).1

/-- A number with a mantissa of 53 bits is a double. -/
theorem rnd_of_mantissa (m : ℕ) (hm : m ≤ 2 ^ 53) (e : ℤ) : rnd (m * 2 ^ e) = m * 2 ^ e := by
  rcases Nat.eq_zero_or_pos m with rfl | hpos
  · rw [Nat.cast_zero, zero_mul, rnd_zero]
  have hx : (0 : ℚ) < m * 2 ^ e := mul_pos (Nat.cast_pos.mpr hpos) (zpow_pos two_pos e)
  obtain ⟨hlo, -⟩ := mantissa_bounds hx
  -- the mantissa is `m`, by a power of two that is none below 1, but for `m = 2^53`
  have hwhole : ∃ n : ℤ, m * 2 ^ e / ulp (m * 2 ^ e) = n := by
    obtain ⟨k, hk⟩ : ∃ k : ℤ, m * 2 ^ e / ulp (m * 2 ^ e) = m * (2 : ℚ) ^ k := by
      refine ⟨e - (Int.log 2 |(m : ℚ) * 2 ^ e| - 52), ?_⟩
      rw [ulp, mul_div_assoc, ← zpow_sub₀ two_ne_zero]
    rw [hk] at hlo ⊢
    rcases lt_or_ge k 0 with hneg | hnn
    · have hmq : (m : ℚ) ≤ 2 ^ 53 := by exact_mod_cast hm
      have hhalf : (2 : ℚ) ^ k ≤ 2 ^ (-1 : ℤ) := zpow_le_zpow_right₀ one_le_two (by omega)
      have htop : (m : ℚ) * 2 ^ k ≤ 2 ^ 53 * 2 ^ (-1 : ℤ) := mul_le_mul hmq hhalf (zpow_pos two_pos k).le (by norm_num)
      have heq : (m : ℚ) * 2 ^ k = 2 ^ 52 := le_antisymm (by norm_num at htop ⊢; exact htop) hlo
      exact ⟨2 ^ 52, by rw [heq]; norm_num⟩
    · obtain ⟨n, rfl⟩ := Int.eq_ofNat_of_zero_le hnn
      exact ⟨m * 2 ^ n, by push_cast [zpow_natCast]; rfl⟩
  obtain ⟨n, hn⟩ := hwhole
  rw [rnd, hn, nearest_intCast, ← hn, div_mul_cancel₀ _ (ulp_pos _).ne']

theorem nearest_mantissa (hx : 0 < x) : 2 ^ 52 ≤ nearest (x / ulp x) ∧ nearest (x / ulp x) ≤ 2 ^ 53 := by
  obtain ⟨hlo, hhi⟩ := mantissa_bounds hx
  have hpow : ∀ k : ℕ, nearest ((2 : ℚ) ^ k) = 2 ^ k := by
    intro k
    have h := nearest_intCast (2 ^ k)
    rwa [Int.cast_pow, Int.cast_ofNat] at h
  exact ⟨le_of_eq_of_le (hpow 52).symm (nearest_mono hlo), le_of_le_of_eq (nearest_mono hhi.le) (hpow 53)⟩

/-- What was rounded is a double. -/
theorem rnd_rnd (hx : 0 ≤ x) : rnd (rnd x) = rnd x := by
  rcases hx.eq_or_lt with rfl | hx
  · rw [rnd_zero, rnd_zero]
  · obtain ⟨hlo, hhi⟩ := nearest_mantissa hx
    obtain ⟨m, hm⟩ := Int.eq_ofNat_of_zero_le (le_trans (by norm_num) hlo)
    rw [hm] at hhi
    have h := rnd_of_mantissa m (by exact_mod_cast hhi) (Int.log 2 |x| - 52)
    rwa [show rnd x = (m : ℚ) * 2 ^ (Int.log 2 |x| - 52) by rw [rnd, hm, ulp]; rfl]

theorem rnd_mono (hx : 0 ≤ x) (h : x ≤ y) : rnd x ≤ rnd y := by
  rcases hx.eq_or_lt with rfl | hx
  · rw [rnd_zero]
    exact rnd_nonneg h
  have hy := lt_of_lt_of_le hx h
  rcases (Int.log_mono_right hx h : Int.log 2 x ≤ Int.log 2 y).eq_or_lt with heq | hlt
  · have hulp : ulp x = ulp y := by rw [ulp, ulp, abs_of_pos hx, abs_of_pos hy, heq]
    rw [rnd, rnd, hulp]
    have hmono := nearest_mono (div_le_div_of_nonneg_right h (ulp_pos y).le)
    exact mul_le_mul_of_nonneg_right (by exact_mod_cast hmono) (ulp_pos y).le
  · -- there is a power of two between them
    have hxpow : rnd x ≤ 2 ^ 53 * ulp x := by
      have htop := (nearest_mantissa hx).2
      exact mul_le_mul_of_nonneg_right (by exact_mod_cast htop) (ulp_pos x).le
    have hypow : 2 ^ 52 * ulp y ≤ rnd y := by
      have hlow := (nearest_mantissa hy).1
      exact mul_le_mul_of_nonneg_right (by exact_mod_cast hlow) (ulp_pos y).le
    have hpow : (2 : ℚ) ^ 53 * ulp x ≤ 2 ^ 52 * ulp y := by
      rw [mul_ulp, mul_ulp, abs_of_pos hx, abs_of_pos hy]
      exact zpow_le_zpow_right₀ one_le_two (by push_cast; omega)
    exact le_trans hxpow (le_trans hpow hypow)

/-- Rounding where the power of two below is known. -/
theorem rnd_eq {e : ℤ} (hlo : (2 : ℚ) ^ e ≤ x) (hhi : x < 2 ^ (e + 1)) :
    rnd x = nearest (x / 2 ^ (e - 52)) * 2 ^ (e - 52) := by
  have hx : 0 < x := lt_of_lt_of_le (zpow_pos two_pos e) hlo
  have hge := (Int.zpow_le_iff_le_log one_lt_two hx).mp hlo
  have hlt := (Int.lt_zpow_iff_log_lt one_lt_two hx).mp hhi
  have hlog : Int.log 2 x = e := by omega
  rw [rnd, ulp, abs_of_pos hx, hlog]

end Round

end Varnish.Lib.Binary64
