import Mathlib

/-!
# Carries of an increment

Adding one to a number clears the one bits at its bottom and sets the bit above them.  So bit
`j` is set in `n` and clear in `n + 1` exactly when `2 ^ (j + 1)` divides `n + 1`
(`testBit_and_not_testBit_succ_iff`).  Rounding such an `n` down to a multiple of `2 ^ j` gives
`n + 1 - 2 ^ j` (`sub_mod_two_pow_of_dvd`), an odd multiple of `2 ^ j`
(`mod_two_pow_succ_of_dvd`), which is a power of two only when it is `2 ^ j` itself
(`eq_of_two_pow_mod_two_pow_succ`).

Rounding down to a multiple of `2 ^ i` is monotone, and two different roundings lie at least
`2 ^ i` apart (`lt_sub_mod_of_sub_mod_ne`).
-/

namespace Kivaloo.Lib

/-- Bit `j` of `n` is set when the remainder of `n` modulo `2 ^ (j + 1)` reaches `2 ^ j`. -/
theorem testBit_iff_two_pow_le_mod (n j : ℕ) :
    n.testBit j = true ↔ 2 ^ j ≤ n % 2 ^ (j + 1) := by
  rw [Nat.testBit_eq_decide_div_mod_eq, decide_eq_true_iff, Nat.mod_pow_succ]
  have hlow : n % 2 ^ j < 2 ^ j := Nat.mod_lt _ (Nat.two_pow_pos j)
  rcases Nat.mod_two_eq_zero_or_one (n / 2 ^ j) with h | h <;> rw [h] <;> omega

/-- `P` divides `n + 1` exactly when `n` leaves the remainder `P - 1`. -/
theorem dvd_succ_iff_mod_eq {n P : ℕ} (hP : 0 < P) : P ∣ n + 1 ↔ n % P = P - 1 := by
  have hdm := Nat.div_add_mod n P
  have hlt := Nat.mod_lt n hP
  constructor
  · rintro ⟨c, hc⟩
    -- `n + 1 = P * c` with `c ≥ 1`, so `n = P * (c - 1) + (P - 1)`
    obtain ⟨c, rfl⟩ : ∃ c', c = c' + 1 := ⟨c - 1, by
      rcases c with _ | c
      · simp at hc
      · simp⟩
    have hn : n = (P - 1) + P * c := by rw [Nat.mul_succ] at hc; omega
    rw [hn, Nat.add_mul_mod_self_left, Nat.mod_eq_of_lt (by omega)]
  · intro h
    refine ⟨n / P + 1, ?_⟩
    rw [Nat.mul_succ]
    omega

/-- Bit `j` is set in `n` and clear in `n + 1` exactly when `2 ^ (j + 1)` divides `n + 1`: the
bits from `0` to `j` of `n` are all set. -/
theorem testBit_and_not_testBit_succ_iff (n j : ℕ) :
    (n.testBit j = true ∧ (n + 1).testBit j = false) ↔ 2 ^ (j + 1) ∣ n + 1 := by
  have hP : 2 ^ (j + 1) = 2 * 2 ^ j := by rw [Nat.pow_succ, Nat.mul_comm]
  have hpos := Nat.two_pow_pos j
  have hlt := Nat.mod_lt n (Nat.two_pow_pos (j + 1))
  rw [dvd_succ_iff_mod_eq (Nat.two_pow_pos (j + 1)), testBit_iff_two_pow_le_mod,
    ← Bool.not_eq_true, testBit_iff_two_pow_le_mod]
  -- the remainder of `n + 1` is that of `n` plus one, or zero after a carry out of bit `j`
  have hsucc : (n + 1) % 2 ^ (j + 1) =
      if n % 2 ^ (j + 1) + 1 = 2 ^ (j + 1) then 0 else n % 2 ^ (j + 1) + 1 := by
    rw [Nat.add_mod]
    split_ifs with h
    · rw [Nat.mod_eq_of_lt (a := 1) (by omega), h, Nat.mod_self]
    · rw [Nat.mod_eq_of_lt (a := 1) (by omega), Nat.mod_eq_of_lt (by omega)]
  rw [hsucc]
  split_ifs <;> omega

/-- When `2 ^ j` divides `n + 1`, the bits of `n` below `j` are all set. -/
theorem mod_two_pow_of_dvd_succ {n j : ℕ} (h : 2 ^ j ∣ n + 1) : n % 2 ^ j = 2 ^ j - 1 :=
  (dvd_succ_iff_mod_eq (Nat.two_pow_pos j)).mp h

/-- Rounding `n` down to a multiple of `2 ^ j`, when `2 ^ (j + 1)` divides `n + 1`. -/
theorem sub_mod_two_pow_of_dvd {n j : ℕ} (h : 2 ^ (j + 1) ∣ n + 1) :
    n - n % 2 ^ j = n + 1 - 2 ^ j := by
  have hj : 2 ^ j ∣ n + 1 := (Nat.pow_dvd_pow 2 (Nat.le_succ j)).trans h
  have hmod := mod_two_pow_of_dvd_succ hj
  have hle := Nat.mod_le n (2 ^ j)
  have hpos := Nat.two_pow_pos j
  omega

/-- `n + 1 - 2 ^ j` is an odd multiple of `2 ^ j` when `2 ^ (j + 1)` divides `n + 1`. -/
theorem mod_two_pow_succ_of_dvd {n j : ℕ} (h : 2 ^ (j + 1) ∣ n + 1) :
    (n + 1 - 2 ^ j) % 2 ^ (j + 1) = 2 ^ j := by
  obtain ⟨c, hc⟩ := h
  have hP : 2 ^ (j + 1) = 2 ^ j + 2 ^ j := by rw [Nat.pow_succ, Nat.mul_two]
  have hc1 : 1 ≤ c := by
    rcases c with _ | c
    · simp at hc
    · omega
  -- `n + 1 - 2 ^ j = 2 ^ j + 2 ^ (j + 1) * (c - 1)`
  have hsplit : n + 1 - 2 ^ j = 2 ^ j + 2 ^ (j + 1) * (c - 1) := by
    have : 2 ^ (j + 1) * c = 2 ^ (j + 1) * (c - 1) + 2 ^ (j + 1) := by
      rw [← Nat.mul_succ, Nat.succ_eq_add_one, Nat.sub_add_cancel hc1]
    omega
  have hlt : 2 ^ j < 2 ^ (j + 1) := Nat.pow_lt_pow_right (by norm_num) (Nat.lt_succ_self j)
  rw [hsplit, Nat.add_mul_mod_self_left, Nat.mod_eq_of_lt hlt]

/-- A power of two that is `2 ^ j` modulo `2 ^ (j + 1)` is `2 ^ j`. -/
theorem eq_of_two_pow_mod_two_pow_succ {i j : ℕ} (h : 2 ^ i % 2 ^ (j + 1) = 2 ^ j) : i = j := by
  rcases Nat.lt_or_ge i (j + 1) with hij | hij
  · rw [Nat.mod_eq_of_lt (Nat.pow_lt_pow_right (by norm_num) hij)] at h
    exact Nat.pow_right_injective (le_refl 2) h
  · rw [Nat.mod_eq_zero_of_dvd (Nat.pow_dvd_pow 2 hij)] at h
    exact absurd h.symm (Nat.two_pow_pos j).ne'

/-- Rounding down to a multiple of `2 ^ i`. -/
theorem sub_mod_eq_mul_div (n d : ℕ) : n - n % d = d * (n / d) := by
  have := Nat.div_add_mod n d
  omega

/-- Two different roundings down to multiples of `d`, of `n ≤ m`: the one of `m` lies above `n`
itself. -/
theorem lt_sub_mod_of_sub_mod_ne {m n d : ℕ} (hd : 0 < d) (h : n ≤ m)
    (hne : m - m % d ≠ n - n % d) : n < m - m % d := by
  rw [sub_mod_eq_mul_div, sub_mod_eq_mul_div] at *
  have hdiv : n / d < m / d := by
    rcases Nat.lt_or_ge (n / d) (m / d) with hlt | hge
    · exact hlt
    · exact absurd (by rw [le_antisymm (Nat.div_le_div_right h) hge]) hne
  -- `n < d * (n / d + 1) ≤ d * (m / d)`
  have hn : n < d * (n / d + 1) := by
    have := Nat.div_add_mod n d
    have := Nat.mod_lt n hd
    rw [Nat.mul_succ]
    omega
  exact hn.trans_le (Nat.mul_le_mul_left d hdiv)

/-- A number at least `d` rounds down to at least `d`. -/
theorem le_sub_mod_of_le {n d : ℕ} (h : d ≤ n) : d ≤ n - n % d := by
  rcases Nat.eq_zero_or_pos d with rfl | hd
  · exact Nat.zero_le _
  · rw [sub_mod_eq_mul_div]
    calc d = d * 1 := (Nat.mul_one d).symm
      _ ≤ d * (n / d) := Nat.mul_le_mul_left d ((Nat.one_le_div_iff hd).mpr h)

end Kivaloo.Lib
