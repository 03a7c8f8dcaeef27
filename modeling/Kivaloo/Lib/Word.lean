import Mathlib

/-!
# Facts about 64-bit words

The C code compares and adds `uint64_t` values, which wrap around at `2 ^ 64`.  These lemmas say
when such a sum is the sum of the numbers: below a bound an increment does not wrap
(`toNat_add_one_of_lt`), and a word below a sum `r + c` with `r` at most the word was below the
unwrapped sum (`toNat_lt_of_lt_add`), since a wrapped sum is below `r`.
-/

namespace Kivaloo.Lib

/-- Below some `N`, adding one does not wrap around. -/
theorem toNat_add_one_of_lt {M N : UInt64} (h : M < N) : (M + 1).toNat = M.toNat + 1 := by
  have hlt : M.toNat < N.toNat := UInt64.lt_iff_toNat_lt.mp h
  have hN := N.toNat_lt
  rw [UInt64.toNat_add, UInt64.toNat_one, Nat.mod_eq_of_lt (by omega)]

/-- A word at least `r` and below the `uint64_t` sum `r + c` is below the sum of the numbers:
had the sum wrapped, it would be below `r`. -/
theorem toNat_lt_of_lt_add {M r c : UInt64} (hr : r ≤ M) (h : M < r + c) :
    M.toNat < r.toNat + c.toNat := by
  have hrM : r.toNat ≤ M.toNat := UInt64.le_iff_toNat_le.mp hr
  have hlt : M.toNat < (r + c).toNat := UInt64.lt_iff_toNat_lt.mp h
  rw [UInt64.toNat_add] at hlt
  have hc := c.toNat_lt
  omega

end Kivaloo.Lib
