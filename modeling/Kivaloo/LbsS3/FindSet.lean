import Kivaloo.Lib.Carry

/-!
# The find set and the keep set (lbs-s3/DESIGN)

FindLast locates the last S3 object by HEAD requests for objects of `FINDSET(N)`: the powers of
two below `N`, the roundings of `N` down to multiples of those powers, and `N` itself.  The keep
set `KEEPSET(N)` is the union of the find sets from `N` on, the objects some later FindLast may
still probe.  The lemma of the DESIGN says that this is `FINDSET(N)` and every object above `N`
(`keepset_eq`).

Going from `M` to `M + 1` drops from the find set exactly the roundings of `M` at the powers of
two below its trailing one bits, the powers of two themselves excepted
(`mem_findset_diff_iff`); these are the objects the algorithm DeleteTo deletes while processing
`M`, and none of them is in `KEEPSET(M + 1)` (`not_mem_keepset_succ`).
-/

namespace Kivaloo.LbsS3

open Kivaloo.Lib

/-- `FINDSET(N) = {2^i : 2^i < N} ∪ {N - (N mod 2^i) : 2^i < N} ∪ {N}`. -/
def findset (N : ℕ) : Set ℕ :=
  {x | (∃ i, 2 ^ i < N ∧ x = 2 ^ i) ∨ (∃ i, 2 ^ i < N ∧ x = N - N % 2 ^ i) ∨ x = N}

/-- `KEEPSET(N) = FINDSET(N) ∪ FINDSET(N+1) ∪ FINDSET(N+2) ∪ ...`. -/
def keepset (N : ℕ) : Set ℕ := {x | ∃ M, N ≤ M ∧ x ∈ findset M}

theorem self_mem_findset (N : ℕ) : N ∈ findset N := Or.inr (Or.inr rfl)

/-- The largest member of `FINDSET(N)` is `N`. -/
theorem le_of_mem_findset {x N : ℕ} (h : x ∈ findset N) : x ≤ N := by
  rcases h with ⟨i, hi, rfl⟩ | ⟨i, hi, rfl⟩ | rfl
  · exact hi.le
  · exact Nat.sub_le _ _
  · exact le_rfl

/-- A later keep set is part of an earlier one. -/
theorem keepset_anti {N N' : ℕ} (h : N ≤ N') : keepset N' ⊆ keepset N :=
  fun _ ⟨M, hM, hx⟩ => ⟨M, h.trans hM, hx⟩

/-- The lemma of the DESIGN: `KEEPSET(N) = FINDSET(N) ∪ {N+1, N+2, ...}`. -/
theorem keepset_eq (N : ℕ) : keepset N = findset N ∪ {x | N < x} := by
  ext x
  constructor
  · rintro ⟨M, hNM, hx⟩
    -- the three kinds of members of `FINDSET(M)`, for some `M ≥ N`
    rcases hx with ⟨i, hi, rfl⟩ | ⟨i, hi, rfl⟩ | rfl
    · -- a power of two: in `FINDSET(N)` unless it lies above `N`
      rcases lt_trichotomy (2 ^ i) N with hlt | heq | hgt
      · exact Or.inl (Or.inl ⟨i, hlt, rfl⟩)
      · rw [heq]
        exact Or.inl (self_mem_findset N)
      · exact Or.inr hgt
    · -- a rounding of `M`: the same rounding of `N`, or above `N`
      by_cases hiN : 2 ^ i ≤ N
      · by_cases heq : M - M % 2 ^ i = N - N % 2 ^ i
        · rw [heq]
          rcases hiN.lt_or_eq with hlt | heqN
          · exact Or.inl (Or.inr (Or.inl ⟨i, hlt, rfl⟩))
          · have hmod : N % 2 ^ i = 0 := by rw [← heqN, Nat.mod_self]
            rw [hmod, Nat.sub_zero]
            exact Or.inl (self_mem_findset N)
        · exact Or.inr (lt_sub_mod_of_sub_mod_ne (Nat.two_pow_pos i) hNM heq)
      · exact Or.inr (lt_of_lt_of_le (not_le.mp hiN) (le_sub_mod_of_le hi.le))
    · rcases hNM.lt_or_eq with hlt | rfl
      · exact Or.inr hlt
      · exact Or.inl (self_mem_findset _)
  · rintro (hx | hx)
    · exact ⟨N, le_rfl, hx⟩
    · exact ⟨x, le_of_lt hx, self_mem_findset x⟩

/-! ## From `M` to `M + 1` -/

/-- A rounding of `M` at its trailing one bits, other than a power of two, is in `FINDSET(M)`. -/
theorem mem_findset_of_dvd {M j : ℕ} (hdvd : 2 ^ (j + 1) ∣ M + 1)
    (hne : M - M % 2 ^ j ≠ 2 ^ j) : M - M % 2 ^ j ∈ findset M := by
  by_cases hj : 2 ^ j < M
  · exact Or.inr (Or.inl ⟨j, hj, rfl⟩)
  · -- `M + 1 ≥ 2 ^ (j + 1)` leaves only `M = 2 ^ j = 1`, whose rounding is `2 ^ j`
    exfalso
    have hle : 2 ^ (j + 1) ≤ M + 1 := Nat.le_of_dvd (Nat.succ_pos M) hdvd
    have hP : 2 ^ (j + 1) = 2 ^ j + 2 ^ j := by rw [Nat.pow_succ, Nat.mul_two]
    have hMj : M = 2 ^ j := by omega
    apply hne
    rw [hMj, Nat.mod_self, Nat.sub_zero]

/-- A rounding of `M` at its trailing one bits, other than a power of two, is not in
`FINDSET(M + 1)`: it is an odd multiple of `2 ^ j` below `M + 1`. -/
theorem not_mem_findset_succ_of_dvd {M j : ℕ} (hdvd : 2 ^ (j + 1) ∣ M + 1)
    (hne : M - M % 2 ^ j ≠ 2 ^ j) : M - M % 2 ^ j ∉ findset (M + 1) := by
  rw [sub_mod_two_pow_of_dvd hdvd] at hne ⊢
  have hodd := mod_two_pow_succ_of_dvd hdvd
  have hpos := Nat.two_pow_pos j
  rintro (⟨i, -, hi⟩ | ⟨i, -, heq⟩ | heq)
  · -- a power of two that is `2 ^ j` modulo `2 ^ (j + 1)` is `2 ^ j`
    rw [hi] at hodd hne
    exact hne (by rw [eq_of_two_pow_mod_two_pow_succ hodd])
  · -- a rounding of `M + 1`: `M + 1` itself up to `2 ^ (j + 1)`, a multiple of it above
    rcases Nat.lt_or_ge (j + 1) i with hji | hij
    · have hmul : 2 ^ (j + 1) ∣ M + 1 - (M + 1) % 2 ^ i := by
        rw [sub_mod_eq_mul_div]
        exact Dvd.dvd.mul_right (Nat.pow_dvd_pow 2 hji.le) _
      rw [heq, Nat.mod_eq_zero_of_dvd hmul] at hodd
      exact hpos.ne' hodd.symm
    · have hmod : (M + 1) % 2 ^ i = 0 :=
        Nat.mod_eq_zero_of_dvd ((Nat.pow_dvd_pow 2 hij).trans hdvd)
      rw [hmod, Nat.sub_zero] at heq
      omega
  · omega

/-- A rounding of `M` that `FINDSET(M + 1)` does not keep comes from the trailing one bits of
`M`, and is not a power of two. -/
theorem dvd_of_not_mem_findset_succ {M i : ℕ} (hi : 2 ^ i ≤ M)
    (hx : M - M % 2 ^ i ∉ findset (M + 1)) : 2 ^ (i + 1) ∣ M + 1 ∧ M - M % 2 ^ i ≠ 2 ^ i := by
  have hpos := Nat.two_pow_pos i
  have hP : 2 ^ (i + 1) = 2 ^ i + 2 ^ i := by rw [Nat.pow_succ, Nat.mul_two]
  have hle := Nat.mod_le M (2 ^ i)
  by_cases hdvd : 2 ^ (i + 1) ∣ M + 1
  · refine ⟨hdvd, fun heq => hx ?_⟩
    rw [heq]
    exact Or.inl ⟨i, by omega, rfl⟩
  · exfalso
    apply hx
    by_cases hdvdi : 2 ^ i ∣ M + 1
    · -- `M + 1` is an odd multiple of `2 ^ i`: `M` rounds as `M + 1` does at `2 ^ (i + 1)`
      have hmodi := mod_two_pow_of_dvd_succ hdvdi
      have hr : (M + 1) % 2 ^ (i + 1) = 2 ^ i := by
        obtain ⟨t, ht⟩ : 2 ^ i ∣ (M + 1) % 2 ^ (i + 1) :=
          (Nat.dvd_mod_iff (Nat.pow_dvd_pow 2 (Nat.le_succ i))).mpr hdvdi
        have hlt := Nat.mod_lt (M + 1) (Nat.two_pow_pos (i + 1))
        have hne : (M + 1) % 2 ^ (i + 1) ≠ 0 := fun h0 => hdvd (Nat.dvd_of_mod_eq_zero h0)
        rcases t with _ | _ | t
        · exact absurd ht hne
        · rw [ht, Nat.mul_one]
        · exfalso
          rw [ht] at hlt
          have : 2 ^ i * (t + 1 + 1) = 2 ^ i * t + 2 ^ i + 2 ^ i := by ring
          omega
      -- `M + 1 = 2 ^ (i + 1) * q + 2 ^ i` with `q ≥ 1`, since `M ≥ 2 ^ i`
      have hdm := Nat.div_add_mod (M + 1) (2 ^ (i + 1))
      rw [hr] at hdm
      have hq : 1 ≤ (M + 1) / 2 ^ (i + 1) := by
        rcases Nat.eq_zero_or_pos ((M + 1) / 2 ^ (i + 1)) with h0 | h0
        · rw [h0, Nat.mul_zero] at hdm
          omega
        · exact h0
      have hbig : 2 ^ (i + 1) ≤ 2 ^ (i + 1) * ((M + 1) / 2 ^ (i + 1)) :=
        Nat.le_mul_of_pos_right _ hq
      exact Or.inr (Or.inl ⟨i + 1, by omega, by omega⟩)
    · -- no carry into bit `i`: `M` and `M + 1` round alike
      have hmod : M % 2 ^ i ≠ 2 ^ i - 1 := fun h => hdvdi ((dvd_succ_iff_mod_eq hpos).mpr h)
      have hlt := Nat.mod_lt M hpos
      have hsucc : (M + 1) % 2 ^ i = M % 2 ^ i + 1 := by
        rw [Nat.add_mod, Nat.mod_eq_of_lt (a := 1) (by omega), Nat.mod_eq_of_lt (by omega)]
      exact Or.inr (Or.inl ⟨i, by omega, by omega⟩)

/-- `FINDSET(M) \ FINDSET(M + 1)`: the roundings of `M` at the powers of two below its trailing
one bits, powers of two excepted. -/
theorem mem_findset_diff_iff {M x : ℕ} (hM : 1 ≤ M) :
    x ∈ findset M \ findset (M + 1) ↔
      ∃ j, 2 ^ (j + 1) ∣ M + 1 ∧ x = M - M % 2 ^ j ∧ x ≠ 2 ^ j := by
  constructor
  · rintro ⟨hx, hx'⟩
    rcases hx with ⟨i, hi, rfl⟩ | ⟨i, hi, rfl⟩ | hxM
    · exact absurd (Or.inl ⟨i, by omega, rfl⟩) hx'
    · obtain ⟨hdvd, hne⟩ := dvd_of_not_mem_findset_succ hi.le hx'
      exact ⟨i, hdvd, rfl, hne⟩
    · -- `M` is its own rounding at `2 ^ 0`
      have hround : M - M % 2 ^ 0 = M := by rw [Nat.pow_zero, Nat.mod_one, Nat.sub_zero]
      have hx0 : M - M % 2 ^ 0 ∉ findset (M + 1) := by
        rw [hround]
        rwa [hxM] at hx'
      obtain ⟨hdvd, hne⟩ :=
        dvd_of_not_mem_findset_succ (M := M) (i := 0) (by rw [Nat.pow_zero]; exact hM) hx0
      rw [hround] at hne
      exact ⟨0, hdvd, by rw [hxM, hround], by rwa [hxM]⟩
  · rintro ⟨j, hdvd, rfl, hne⟩
    exact ⟨mem_findset_of_dvd hdvd hne, not_mem_findset_succ_of_dvd hdvd hne⟩

/-- What leaves the find set from `M` to `M + 1` is not in `KEEPSET(M + 1)`. -/
theorem not_mem_keepset_succ {M x : ℕ} (hx : x ∈ findset M \ findset (M + 1)) :
    x ∉ keepset (M + 1) := by
  rw [keepset_eq]
  rintro (h | h)
  · exact hx.2 h
  · have hle := le_of_mem_findset hx.1
    have hlt : M + 1 < x := h
    omega

end Kivaloo.LbsS3
