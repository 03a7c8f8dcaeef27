import Kivaloo.LbsS3.DeleteTo
import Kivaloo.LbsS3.FindSet

/-!
# What one step of DeleteTo issues

The bit loop of `poke` takes `BIT = 2 ^ j` for `j = 0, ..., 63`; the test on `BIT` holds exactly
for the `j` with `2 ^ (j + 1)` dividing `M + 1` (`Lib.testBit_and_not_testBit_succ_iff`), so the
objects deleted for `M` are the roundings of `M` at its trailing one bits that are not powers of
two (`mem_deletes_iff`).  By `mem_findset_diff_iff` this is line 3 of the algorithm of the
DESIGN, `FINDSET(M) \ FINDSET(M + 1)`, and the empty PUT of line 7 is the test of `poke`
(`deleteStep_findset`).  None of the deleted objects is in `KEEPSET(M + 1)`
(`deletes_not_mem_keepset`).
-/

namespace Kivaloo.LbsS3

open Kivaloo.Lib

/-! ## The values of `BIT` -/

/-- `BIT = 2 ^ k` as a 64-bit word. -/
theorem toNat_bit {k : ℕ} (hk : k < 64) : (UInt64.ofNat (2 ^ k)).toNat = 2 ^ k := by
  rw [UInt64.toNat_ofNat', Nat.mod_eq_of_lt (Nat.pow_lt_pow_right (by norm_num) hk)]

/-- `BIT += BIT` doubles `BIT`, wrapping around to zero after `2 ^ 63`. -/
theorem bit_add_bit (k : ℕ) :
    UInt64.ofNat (2 ^ k) + UInt64.ofNat (2 ^ k) = UInt64.ofNat (2 ^ (k + 1)) := by
  rw [← UInt64.toNat_inj, UInt64.toNat_add, UInt64.toNat_ofNat', UInt64.toNat_ofNat',
    ← Nat.add_mod, ← Nat.mul_two, ← Nat.pow_succ]

/-- The test `(M & BIT) == BIT` reads bit `j` of `M`. -/
theorem and_bit_eq_bit_iff {M : UInt64} {j : ℕ} (hj : j < 64) :
    M &&& UInt64.ofNat (2 ^ j) = UInt64.ofNat (2 ^ j) ↔ M.toNat.testBit j = true := by
  rw [← UInt64.toNat_inj, UInt64.toNat_and, toNat_bit hj, Nat.and_two_pow]
  cases M.toNat.testBit j <;> simp [(Nat.two_pow_pos j).ne]

/-- The test `(M & BIT) == 0` reads bit `j` of `M`. -/
theorem and_bit_eq_zero_iff {M : UInt64} {j : ℕ} (hj : j < 64) :
    M &&& UInt64.ofNat (2 ^ j) = 0 ↔ M.toNat.testBit j = false := by
  rw [← UInt64.toNat_inj, UInt64.toNat_and, toNat_bit hj, Nat.and_two_pow]
  cases M.toNat.testBit j <;> simp

/-- `M - M % BIT` rounds `M` down to a multiple of `2 ^ j`. -/
theorem toNat_sub_mod_bit (M : UInt64) {j : ℕ} (hj : j < 64) :
    (M - M % UInt64.ofNat (2 ^ j)).toNat = M.toNat - M.toNat % 2 ^ j := by
  have hle : M % UInt64.ofNat (2 ^ j) ≤ M := by
    rw [UInt64.le_iff_toNat_le, UInt64.toNat_mod]
    exact Nat.mod_le _ _
  rw [UInt64.toNat_sub_of_le _ _ hle, UInt64.toNat_mod, toNat_bit hj]

/-! ## The bit loop -/

/-- The loop from `BIT = 2 ^ k`: the roundings for the bits `j ≥ k` that pass the test. -/
theorem mem_deleteLoop {M X : UInt64} : ∀ {n k : ℕ}, k + n = 64 →
    (X ∈ deleteLoop M n (UInt64.ofNat (2 ^ k)) ↔
      ∃ j, k ≤ j ∧ j < 64 ∧ M &&& UInt64.ofNat (2 ^ j) = UInt64.ofNat (2 ^ j) ∧
        (M + 1) &&& UInt64.ofNat (2 ^ j) = 0 ∧ X = M - M % UInt64.ofNat (2 ^ j) ∧
        X ≠ UInt64.ofNat (2 ^ j))
  | 0, k, hk => by
    simp only [deleteLoop, List.not_mem_nil, false_iff, not_exists, not_and]
    intro j hkj hj
    omega
  | n + 1, k, hk => by
    have hk64 : k < 64 := by omega
    have hbit : UInt64.ofNat (2 ^ k) ≠ 0 := by
      rw [ne_eq, ← UInt64.toNat_inj, toNat_bit hk64, UInt64.toNat_zero]
      exact (Nat.two_pow_pos k).ne'
    have ih := @mem_deleteLoop M X n (k + 1) (by omega)
    simp only [deleteLoop, hbit, if_false, bit_add_bit]
    -- the rest of the loop covers the bits above `k`
    have hsplit : ∀ P : ℕ → Prop, (∃ j, k ≤ j ∧ P j) ↔ P k ∨ ∃ j, k + 1 ≤ j ∧ P j := by
      intro P
      constructor
      · rintro ⟨j, hkj, hj⟩
        rcases hkj.lt_or_eq with hlt | rfl
        · exact Or.inr ⟨j, hlt, hj⟩
        · exact Or.inl hj
      · rintro (hj | ⟨j, hkj, hj⟩)
        · exact ⟨k, le_rfl, hj⟩
        · exact ⟨j, by omega, hj⟩
    rw [hsplit, ← ih]
    split_ifs with htest hX
    · -- `M - M % BIT` is `BIT`: skipped
      constructor
      · exact Or.inr
      · rintro (⟨-, -, -, hXe, hne⟩ | h)
        · exact absurd (hXe.trans hX) hne
        · exact h
    · simp only [List.mem_cons]
      constructor
      · rintro (h | h)
        · refine Or.inl ⟨hk64, htest.1, htest.2, h, ?_⟩
          rw [h]
          exact hX
        · exact Or.inr h
      · rintro (⟨-, -, -, h, -⟩ | h)
        · exact Or.inl h
        · exact Or.inr h
    · constructor
      · exact Or.inr
      · rintro (⟨-, h1, h2, -, -⟩ | h)
        · exact absurd ⟨h1, h2⟩ htest
        · exact h

/-- The objects `poke` deletes while processing `M`, below the last 64-bit word: the roundings
of `M` at its trailing one bits that are not powers of two. -/
theorem mem_deletes_iff {M : UInt64} (hM : M.toNat < 2 ^ 64 - 1) {x : ℕ} :
    (∃ X ∈ deletes M, X.toNat = x) ↔
      ∃ j, 2 ^ (j + 1) ∣ M.toNat + 1 ∧ x = M.toNat - M.toNat % 2 ^ j ∧ x ≠ 2 ^ j := by
  have hsucc : (M + 1).toNat = M.toNat + 1 := by
    rw [UInt64.toNat_add, UInt64.toNat_one, Nat.mod_eq_of_lt (by omega)]
  -- the test on `BIT = 2 ^ j`, read on the numbers
  have htest : ∀ j, j < 64 →
      (M &&& UInt64.ofNat (2 ^ j) = UInt64.ofNat (2 ^ j) ∧ (M + 1) &&& UInt64.ofNat (2 ^ j) = 0 ↔
        2 ^ (j + 1) ∣ M.toNat + 1) := fun j hj => by
    rw [and_bit_eq_bit_iff hj, and_bit_eq_zero_iff hj, hsucc,
      testBit_and_not_testBit_succ_iff]
  unfold deletes
  have hone : (1 : UInt64) = UInt64.ofNat (2 ^ 0) := rfl
  rw [hone]
  constructor
  · rintro ⟨X, hX, rfl⟩
    obtain ⟨j, -, hj, h1, h2, rfl, hne⟩ := (mem_deleteLoop (by omega)).mp hX
    refine ⟨j, (htest j hj).mp ⟨h1, h2⟩, toNat_sub_mod_bit M hj, ?_⟩
    intro h
    apply hne
    rw [← UInt64.toNat_inj, toNat_bit hj]
    exact h
  · rintro ⟨j, hdvd, rfl, hne⟩
    -- `2 ^ (j + 1) ≤ M + 1 < 2 ^ 64` puts the bit inside the word
    have hj : j < 64 := by
      have hle := Nat.le_of_dvd (Nat.succ_pos _) hdvd
      by_contra hge
      have : 2 ^ 64 ≤ 2 ^ (j + 1) := Nat.pow_le_pow_right (by norm_num) (by omega)
      omega
    refine ⟨M - M % UInt64.ofNat (2 ^ j), (mem_deleteLoop (by omega)).mpr
      ⟨j, Nat.zero_le j, hj, ((htest j hj).mpr hdvd).1, ((htest j hj).mpr hdvd).2, rfl, ?_⟩,
      toNat_sub_mod_bit M hj⟩
    intro h
    apply hne
    rw [← toNat_sub_mod_bit M hj, h, toNat_bit hj]

/-- Nothing `poke` deletes while processing `M` is in `KEEPSET(M + 1)`. -/
theorem deletes_not_mem_keepset {M X : UInt64} (hM : M.toNat < 2 ^ 64 - 1) (hX : X ∈ deletes M) :
    X.toNat ∉ keepset (M.toNat + 1) := by
  obtain ⟨j, hdvd, hx, hne⟩ := (mem_deletes_iff hM).mp ⟨X, hX, rfl⟩
  -- `2 ^ (j + 1)` divides `M + 1`, so `M` is not zero
  have hM1 : 1 ≤ M.toNat := by
    have hle := Nat.le_of_dvd (Nat.succ_pos _) hdvd
    have : 2 ≤ 2 ^ (j + 1) := Nat.le_self_pow (Nat.succ_ne_zero j) 2
    omega
  exact not_mem_keepset_succ ((mem_findset_diff_iff hM1).mpr ⟨j, hdvd, hx, hne⟩)

/-! ## One step -/

/-- The DELETEs of one step are those of the bit loop. -/
theorem delete_mem_deleteStep_iff {D : DeleteTo} {X : UInt64} :
    S3Op.delete X ∈ (deleteStep D).2 ↔ X ∈ deletes D.M := by
  simp only [deleteStep, List.mem_append, List.mem_map, S3Op.delete.injEq, exists_eq_right]
  split_ifs <;> simp

/-- The empty PUT of one step is the one of `M`, when `emptyPut` holds. -/
theorem put_mem_deleteStep_iff {D : DeleteTo} {X : UInt64} :
    S3Op.put X ∈ (deleteStep D).2 ↔ X = D.M ∧ emptyPut D.M = true := by
  simp only [deleteStep, List.mem_append, List.mem_map, reduceCtorEq, and_false, exists_false,
    false_or]
  split_ifs with h <;> simp [h]

/-- No step stores DeletedMarker. -/
theorem putMarker_not_mem_deleteStep {D : DeleteTo} {m : UInt64} :
    S3Op.putMarker m ∉ (deleteStep D).2 := by
  simp only [deleteStep, List.mem_append, List.mem_map, reduceCtorEq, and_false, exists_false,
    false_or]
  split_ifs <;> simp

/-- The test for the empty PUT: `M & (M - 1)` is zero exactly for powers of two. -/
theorem emptyPut_iff {M : UInt64} (hM : 1 ≤ M.toNat) :
    emptyPut M = true ↔ M.toNat.isPowerOfTwo ∨ M.toNat % 256 = 0 := by
  have hsub : (M - 1).toNat = M.toNat - 1 := by
    have hle : (1 : UInt64) ≤ M := UInt64.le_iff_toNat_le.mpr (by rw [UInt64.toNat_one]; exact hM)
    rw [UInt64.toNat_sub_of_le _ _ hle, UInt64.toNat_one]
  have hand : M &&& (M - 1) = 0 ↔ M.toNat &&& (M.toNat - 1) = 0 := by
    rw [← UInt64.toNat_inj, UInt64.toNat_and, hsub, UInt64.toNat_zero]
  have hmod : M % 256 = 0 ↔ M.toNat % 256 = 0 := by
    rw [← UInt64.toNat_inj, UInt64.toNat_mod, UInt64.toNat_zero]
    rfl
  simp only [emptyPut, Bool.or_eq_true, beq_iff_eq, hand, hmod,
    Nat.and_sub_one_eq_zero_iff_isPowerOfTwo (by omega : M.toNat ≠ 0)]

/-- Lines 3 to 9 of the algorithm DeleteTo of the DESIGN: while processing `M`, `poke` deletes
exactly the objects of `FINDSET(M) \ FINDSET(M + 1)`, and issues the empty PUT of `M` exactly
when `M` is a power of two or a multiple of 256. -/
theorem deleteStep_findset {D : DeleteTo} (h1 : 1 ≤ D.M.toNat) (h2 : D.M.toNat < 2 ^ 64 - 1) :
    {x | ∃ X, S3Op.delete X ∈ (deleteStep D).2 ∧ X.toNat = x} =
        findset D.M.toNat \ findset (D.M.toNat + 1) ∧
      (S3Op.put D.M ∈ (deleteStep D).2 ↔ D.M.toNat.isPowerOfTwo ∨ D.M.toNat % 256 = 0) := by
  constructor
  · ext x
    simp only [Set.mem_ofPred_eq, delete_mem_deleteStep_iff]
    rw [mem_findset_diff_iff h1, ← mem_deletes_iff h2]
  · rw [put_mem_deleteStep_iff, emptyPut_iff h1]
    simp

theorem deleteStep_findset_seven :
    1 ≤ (7 : UInt64).toNat ∧ (7 : UInt64).toNat < 2 ^ 64 - 1 ∧
      ({x | ∃ X, S3Op.delete X ∈ (deleteStep ⟨8, 7, 0, true, false, false⟩).2 ∧ X.toNat = x} =
          findset (7 : UInt64).toNat \ findset ((7 : UInt64).toNat + 1) ∧
        (S3Op.put 7 ∈ (deleteStep ⟨8, 7, 0, true, false, false⟩).2 ↔
          (7 : UInt64).toNat.isPowerOfTwo ∨ (7 : UInt64).toNat % 256 = 0)) :=
  ⟨by decide, by decide, deleteStep_findset (D := ⟨8, 7, 0, true, false, false⟩) (by decide) (by decide)⟩

end Kivaloo.LbsS3
