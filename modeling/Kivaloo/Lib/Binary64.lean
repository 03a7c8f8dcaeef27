import Mathlib

/-!
# Binary64 rounding over the rationals

The finite doubles are the rationals `m * 2 ^ e` with `|m| < 2 ^ 53` and `-1074 ≤ e`
(`IsDouble`).  Round to nearest, ties to even (`round`), scales `x` by the last significand place
of its binade (`ulpExp`), rounds that to an integer (`rne`) and scales back.  The exponent is not
bounded from above: a value past the largest double is not rounded to infinity here.

* `rne_mono`, `round_mono`: rounding is monotone (`round` on the values that are not negative).
* `round_of_isDouble`: a double is its own rounding; `isDouble_round`: every rounding is a double;
  so a value is a double exactly when rounding leaves it alone (`isDouble_iff_round_eq`).
* `isDouble_natCast`: the naturals below `2 ^ 53` are doubles; `IsDouble.sub_natCast`: taking a
  natural number off a double is exact while the difference stays below `2 ^ 53`.
-/

namespace Kivaloo.Lib.Binary64

/-! ## Rounding to an integer -/

/-- The integer nearest `y`, the even one of two at a tie. -/
def rne (y : ℚ) : ℤ :=
  if y - ⌊y⌋ < 1 / 2 then ⌊y⌋
  else if 1 / 2 < y - ⌊y⌋ then ⌊y⌋ + 1
  else if ⌊y⌋ % 2 = 0 then ⌊y⌋ else ⌊y⌋ + 1

theorem floor_le_rne (y : ℚ) : ⌊y⌋ ≤ rne y := by
  unfold rne
  split_ifs <;> omega

theorem rne_le_floor_add_one (y : ℚ) : rne y ≤ ⌊y⌋ + 1 := by
  unfold rne
  split_ifs <;> omega

@[simp]
theorem rne_intCast (n : ℤ) : rne n = n := by
  simp [rne]

theorem rne_mono {a b : ℚ} (h : a ≤ b) : rne a ≤ rne b := by
  have hf : ⌊a⌋ ≤ ⌊b⌋ := Int.floor_mono h
  rcases hf.lt_or_eq with hlt | heq
  · -- different integer parts: `rne a ≤ ⌊a⌋ + 1 ≤ ⌊b⌋ ≤ rne b`
    have := rne_le_floor_add_one a
    have := floor_le_rne b
    omega
  · -- one integer part: the fractional parts are ordered, and a tie rounds both alike
    have hfrac : a - ⌊a⌋ ≤ b - ⌊b⌋ := by rw [heq]; linarith
    unfold rne
    rw [heq] at hfrac ⊢
    split_ifs <;> first | omega | linarith

theorem rne_le_of_le {y : ℚ} {n : ℤ} (h : y ≤ n) : rne y ≤ n :=
  rne_intCast n ▸ rne_mono h

theorem le_rne_of_le {y : ℚ} {n : ℤ} (h : (n : ℚ) ≤ y) : n ≤ rne y :=
  rne_intCast n ▸ rne_mono h

/-! ## The doubles -/

/-- The exponent of the last significand place of `x`'s binade: 53 significand bits, and never
below the place `2 ^ -1074` of the subnormals. -/
def ulpExp (x : ℚ) : ℤ := max (Int.log 2 |x| - 52) (-1074)

/-- Round to nearest, ties to even, in binary64. -/
def round (x : ℚ) : ℚ := rne (x / 2 ^ ulpExp x) * 2 ^ ulpExp x

/-- The finite doubles. -/
def IsDouble (x : ℚ) : Prop := ∃ m e : ℤ, |m| < 2 ^ 53 ∧ -1074 ≤ e ∧ x = m * 2 ^ e

theorem abs_lt_two_zpow_ulpExp (x : ℚ) : |x| < 2 ^ (ulpExp x + 53) := by
  calc |x| < (2 : ℚ) ^ (Int.log 2 |x| + 1) := by
        exact_mod_cast Int.lt_zpow_succ_log_self (b := 2) (by norm_num) |x|
    _ ≤ 2 ^ (ulpExp x + 53) := by
        apply zpow_le_zpow_right₀ (by norm_num)
        have := le_max_left (Int.log 2 |x| - 52) (-1074)
        rw [ulpExp]
        omega

/-- Above the subnormals, a value is at least the bottom of its binade. -/
theorem two_zpow_le_abs {x : ℚ} (hx : x ≠ 0) (he : -1074 < ulpExp x) :
    2 ^ (ulpExp x + 52) ≤ |x| := by
  have hlog : ulpExp x = Int.log 2 |x| - 52 := by
    rw [ulpExp] at he ⊢
    omega
  rw [hlog, sub_add_cancel]
  exact_mod_cast Int.zpow_log_le_self (b := 2) (by norm_num) (abs_pos.mpr hx)

theorem ulpExp_le {x : ℚ} {e : ℤ} (hx : x ≠ 0) (he : -1074 ≤ e) (h : |x| < 2 ^ (e + 53)) :
    ulpExp x ≤ e := by
  have hlog : Int.log 2 |x| < e + 53 := by
    by_contra hle
    have := (Int.zpow_le_iff_le_log (b := 2) (by norm_num) (abs_pos.mpr hx)).mpr (not_lt.mp hle)
    push_cast at this
    linarith
  rw [ulpExp]
  omega

theorem ulpExp_mono {a b : ℚ} (ha : 0 < a) (h : a ≤ b) : ulpExp a ≤ ulpExp b := by
  have := Int.log_mono_right (b := 2) (abs_pos.mpr ha.ne') (abs_le_abs_of_nonneg ha.le h)
  unfold ulpExp
  omega

theorem two_zpow_pos (e : ℤ) : (0 : ℚ) < 2 ^ e := zpow_pos (by norm_num) e

theorem two_pow_mul_two_zpow (k : ℕ) (e : ℤ) : (2 : ℚ) ^ k * 2 ^ e = 2 ^ (e + k) := by
  rw [zpow_add₀ two_ne_zero, zpow_natCast, mul_comm]

@[simp]
theorem round_zero : round 0 = 0 := by
  simp [round, rne]

/-- A multiple of `2 ^ e` is a whole multiple of every lower power of two. -/
theorem mul_two_zpow_eq {m e u : ℤ} (hu : u ≤ e) :
    (m : ℚ) * 2 ^ e = ((m * 2 ^ (e - u).toNat : ℤ) : ℚ) * 2 ^ u := by
  have hpow : (2 : ℚ) ^ e = 2 ^ (e - u).toNat * 2 ^ u := by
    rw [← zpow_natCast, ← zpow_add₀ two_ne_zero, Int.toNat_of_nonneg (by omega), sub_add_cancel]
  push_cast
  rw [hpow, mul_assoc]

theorem round_of_isDouble {x : ℚ} (h : IsDouble x) : round x = x := by
  obtain ⟨m, e, hm, he, rfl⟩ := h
  by_cases hm0 : m = 0
  · simp [hm0]
  -- the place of the last bit of `m * 2 ^ e` is at most `e`, so the scaled value is an integer
  have hx : (m : ℚ) * 2 ^ e ≠ 0 := mul_ne_zero (Int.cast_ne_zero.mpr hm0) (two_zpow_pos e).ne'
  have hlt : |(m : ℚ) * 2 ^ e| < 2 ^ (e + 53) := by
    rw [abs_mul, abs_of_pos (two_zpow_pos e), zpow_add₀ two_ne_zero, mul_comm (2 ^ e : ℚ)]
    apply mul_lt_mul_of_pos_right _ (two_zpow_pos e)
    exact_mod_cast hm
  have hu := ulpExp_le hx he hlt
  rw [round]
  set u := ulpExp ((m : ℚ) * 2 ^ e)
  rw [mul_two_zpow_eq (m := m) hu, mul_div_cancel_right₀ _ (two_zpow_pos _).ne', rne_intCast]

/-- The scaled value that `round` rounds lies strictly between `-2 ^ 53` and `2 ^ 53`. -/
theorem abs_div_two_zpow_ulpExp_lt (x : ℚ) : |x / 2 ^ ulpExp x| < 2 ^ 53 := by
  rw [abs_div, abs_of_pos (two_zpow_pos _), div_lt_iff₀ (two_zpow_pos _)]
  have := abs_lt_two_zpow_ulpExp x
  rwa [zpow_add₀ two_ne_zero, mul_comm] at this

theorem isDouble_round (x : ℚ) : IsDouble (round x) := by
  set u := ulpExp x
  have hlt := abs_lt_two_zpow_ulpExp x
  have hy := abs_lt.mp (abs_div_two_zpow_ulpExp_lt x)
  -- the rounded significand lies in `[-2 ^ 53, 2 ^ 53]`
  have hhi : rne (x / 2 ^ u) ≤ 2 ^ 53 := rne_le_of_le (by exact_mod_cast hy.2.le)
  have hlo : -2 ^ 53 ≤ rne (x / 2 ^ u) := le_rne_of_le (by push_cast; linarith [hy.1])
  have hu : -1074 ≤ u := le_max_right _ _
  rcases lt_or_eq_of_le hhi with hhi | hhi
  · rcases lt_or_eq_of_le hlo with hlo | hlo
    · exact ⟨_, u, abs_lt.mpr ⟨hlo, hhi⟩, hu, rfl⟩
    · -- `-2 ^ 53` at the place `u` is `-2 ^ 52` at the place `u + 1`
      refine ⟨-2 ^ 52, u + 1, by norm_num, by omega, ?_⟩
      rw [round, ← hlo, zpow_add₀ two_ne_zero]
      push_cast
      ring
  · refine ⟨2 ^ 52, u + 1, by norm_num, by omega, ?_⟩
    rw [round, hhi, zpow_add₀ two_ne_zero]
    push_cast
    ring

theorem isDouble_iff_round_eq {x : ℚ} : IsDouble x ↔ round x = x :=
  ⟨round_of_isDouble, fun h => h ▸ isDouble_round x⟩

theorem round_nonneg {x : ℚ} (hx : 0 ≤ x) : 0 ≤ round x := by
  have : 0 ≤ rne (x / 2 ^ ulpExp x) := le_rne_of_le (by
    push_cast
    exact div_nonneg hx (two_zpow_pos _).le)
  exact mul_nonneg (by exact_mod_cast this) (two_zpow_pos _).le

theorem round_mono {a b : ℚ} (ha : 0 ≤ a) (h : a ≤ b) : round a ≤ round b := by
  rcases ha.lt_or_eq with ha | rfl
  swap
  · rw [round_zero]
    exact round_nonneg h
  have hb : 0 < b := ha.trans_le h
  rcases (ulpExp_mono ha h).lt_or_eq with hlt | heq
  · -- different binades: `round a ≤ 2 ^ (ulpExp a + 53) ≤ 2 ^ (ulpExp b + 52) ≤ round b`
    have hbe := two_zpow_le_abs hb.ne' (lt_of_le_of_lt (le_max_right _ _) hlt)
    rw [abs_of_pos hb] at hbe
    have hka : rne (a / 2 ^ ulpExp a) ≤ 2 ^ 53 := rne_le_of_le (by
      exact_mod_cast ((abs_lt.mp (abs_div_two_zpow_ulpExp_lt a)).2).le)
    have hkb : 2 ^ 52 ≤ rne (b / 2 ^ ulpExp b) := le_rne_of_le (by
      rw [le_div_iff₀ (two_zpow_pos _), Int.cast_pow, Int.cast_ofNat, two_pow_mul_two_zpow]
      exact_mod_cast hbe)
    calc round a ≤ 2 ^ 53 * 2 ^ ulpExp a :=
          mul_le_mul_of_nonneg_right (by exact_mod_cast hka) (two_zpow_pos _).le
      _ = 2 ^ (ulpExp a + 53) := two_pow_mul_two_zpow 53 _
      _ ≤ 2 ^ (ulpExp b + 52) := zpow_le_zpow_right₀ (by norm_num) (by omega)
      _ = 2 ^ 52 * 2 ^ ulpExp b := (two_pow_mul_two_zpow 52 _).symm
      _ ≤ round b := mul_le_mul_of_nonneg_right (by exact_mod_cast hkb) (two_zpow_pos _).le
  · -- one binade: rounding the scaled values is monotone
    rw [round, round, heq]
    apply mul_le_mul_of_nonneg_right _ (two_zpow_pos _).le
    exact_mod_cast rne_mono (div_le_div_of_nonneg_right h (two_zpow_pos _).le)

/-! ## Exact operations -/

theorem isDouble_of_grid (k e : ℤ) (he : -1074 ≤ e) (h : |(k : ℚ) * 2 ^ e| < 2 ^ (e + 53)) :
    IsDouble (k * 2 ^ e) := by
  refine ⟨k, e, ?_, he, rfl⟩
  rw [abs_mul, abs_of_pos (two_zpow_pos e), zpow_add₀ two_ne_zero, mul_comm (2 ^ e : ℚ)] at h
  exact_mod_cast lt_of_mul_lt_mul_right h (two_zpow_pos e).le

theorem isDouble_natCast {n : ℕ} (h : n < 2 ^ 53) : IsDouble n :=
  ⟨n, 0, by rw [abs_of_nonneg (by positivity)]; exact_mod_cast h, by norm_num, by simp⟩

theorem round_natCast {n : ℕ} (h : n < 2 ^ 53) : round n = n :=
  round_of_isDouble (isDouble_natCast h)

/-- Taking a natural number `n` off a double `x ≥ n` is exact while the difference stays below
`2 ^ 53`. -/
theorem IsDouble.sub_natCast {x : ℚ} {n : ℕ} (hx : IsDouble x) (hn : (n : ℚ) ≤ x)
    (hlt : x - n < 2 ^ 53) : IsDouble (x - n) := by
  obtain ⟨m, e, hm, he, rfl⟩ := hx
  have hsub : 0 ≤ (m : ℚ) * 2 ^ e - n := by linarith
  by_cases he0 : e ≤ 0
  · -- `n` is a whole multiple of `2 ^ e`, and the difference is at most `x < 2 ^ (e + 53)`
    have hn' : (n : ℚ) = ((n * 2 ^ (0 - e).toNat : ℤ) : ℚ) * 2 ^ e := by
      rw [← mul_two_zpow_eq he0]
      simp
    rw [hn', ← sub_mul, ← Int.cast_sub]
    refine isDouble_of_grid _ e he ?_
    rw [Int.cast_sub, sub_mul, ← hn', abs_of_nonneg hsub, zpow_add₀ two_ne_zero,
      mul_comm (2 ^ e : ℚ)]
    have hm' : (m : ℚ) < 2 ^ 53 := by exact_mod_cast (abs_lt.mp hm).2
    have : (m : ℚ) * 2 ^ e < 2 ^ 53 * 2 ^ e := mul_lt_mul_of_pos_right hm' (two_zpow_pos e)
    have : (0 : ℚ) ≤ n := Nat.cast_nonneg n
    linarith
  · -- `x` is an integer, and so is the difference, below `2 ^ 53`
    obtain ⟨k, hk⟩ : ∃ k : ℤ, (m : ℚ) * 2 ^ e = k := ⟨m * 2 ^ e.toNat, by
      rw [Int.cast_mul, Int.cast_pow, Int.cast_ofNat, ← zpow_natCast,
        Int.toNat_of_nonneg (by omega)]⟩
    rw [hk] at hsub hlt ⊢
    have hlo : (0 : ℚ) ≤ ((k - n : ℤ) : ℚ) := by push_cast; exact hsub
    have hhi : ((k - n : ℤ) : ℚ) < 2 ^ 53 := by push_cast; exact hlt
    have hlo' : 0 ≤ k - n := by exact_mod_cast hlo
    have hhi' : k - n < 2 ^ 53 := by exact_mod_cast hhi
    exact ⟨k - n, 0, abs_lt.mpr ⟨by omega, hhi'⟩, by norm_num, by push_cast; ring⟩

end Kivaloo.Lib.Binary64
