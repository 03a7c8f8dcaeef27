import Kivaloo.Lib.Lex

/-!
# Keys and values

A KVLDS key or value (`struct kvldskey`, lib/datastruct/kvldskey.h) is a length byte followed
by 0 to 255 bytes of data.  `kvldskey_cmp` orders keys byte by byte as unsigned values, a proper
prefix sorting first; the B+Tree code mostly calls `kvldskey_cmp2`, which starts comparing at a
position up to which the two keys are known to agree, and `kvldskey_mlen`, which measures how far
two keys agree.

The order `kvldskey_cmp` implements is the lexicographic order on the byte values
(`cmp_neg_iff`, `cmp_eq_zero_iff`); `kvldskey_cmp2` returns the same value as `kvldskey_cmp`
whenever its promise about the shared prefix holds (`cmp2_eq_cmp`).
-/

namespace Kivaloo.Kvlds

open Kivaloo.Lib

/-- A key or value of 0 to 255 bytes (`struct kvldskey`). -/
structure KVLDSKey where
  /-- The data bytes. -/
  buf : List UInt8
  /-- The length must fit the length byte. -/
  len_le : buf.length ≤ 255
deriving DecidableEq

namespace KVLDSKey

/-- The length byte. -/
def len (K : KVLDSKey) : ℕ := K.buf.length

/-- The data bytes as numbers, in terms of which keys are ordered. -/
def bytes (K : KVLDSKey) : List ℕ := K.buf.map UInt8.toNat

theorem bytes_injective : Function.Injective bytes := by
  rintro ⟨x, hx⟩ ⟨y, hy⟩ h
  have : x = y := List.map_injective_iff.mpr (fun a b h => UInt8.toNat_inj.mp h) h
  subst this
  rfl

/-- Keys are ordered lexicographically by their unsigned byte values. -/
instance : LinearOrder KVLDSKey := LinearOrder.lift' bytes bytes_injective

theorem lt_iff_bytes {x y : KVLDSKey} : x < y ↔ x.bytes < y.bytes := Iff.rfl

theorem le_iff_bytes {x y : KVLDSKey} : x ≤ y ↔ x.bytes ≤ y.bytes := Iff.rfl

/-- `kvldskey_serial_size(K)`: the length byte and the data. -/
def serialSize (K : KVLDSKey) : ℕ := K.len + 1

theorem serialSize_le (K : KVLDSKey) : K.serialSize ≤ 256 := by
  have := K.len_le
  simp only [serialSize, len]
  omega

/-- The empty key, `kvldskey_create(NULL, 0)`.  As a range end it stands for the end of the
key space. -/
def empty : KVLDSKey := ⟨[], by simp⟩

@[simp] theorem empty_len : empty.len = 0 := rfl

theorem length_singleton_le (b : UInt8) : [b].length ≤ 255 := by simp

/-- The key of the one byte `b`. -/
def single (b : UInt8) : KVLDSKey := ⟨[b], length_singleton_le b⟩

/-- The length fits its byte. -/
@[simp] theorem toNat_ofNat_len (k : KVLDSKey) : (UInt8.ofNat k.len).toNat = k.len := by
  have hlt : k.len < 2 ^ 8 := by
    have := k.len_le
    simp only [len]
    omega
  rw [UInt8.toNat_ofNat', Nat.mod_eq_of_lt hlt]

end KVLDSKey

open KVLDSKey

/-! ## `kvldskey_cmp2`, `kvldskey_cmp` and `kvldskey_mlen` -/

/-- The loop of `kvldskey_cmp2`: the difference `x[i] - y[i]` at the first position where two
byte strings differ, while both last. -/
def firstDiff : List UInt8 → List UInt8 → Option ℤ
  | a :: as, b :: bs => if a = b then firstDiff as bs else some ((a.toNat : ℤ) - b.toNat)
  | _, _ => none

/-- `kvldskey_cmp2(x, y, mlen)`: compare from byte `mlen` on, the first `mlen` bytes being
known to match; the difference of the lengths breaks a tie. -/
def kvldskeyCmp2 (x y : KVLDSKey) (mlen : ℕ) : ℤ :=
  (firstDiff (x.buf.drop mlen) (y.buf.drop mlen)).getD ((x.len : ℤ) - y.len)

/-- `kvldskey_cmp(x, y)`. -/
def kvldskeyCmp (x y : KVLDSKey) : ℤ := kvldskeyCmp2 x y 0

/-- The loop of `kvldskey_mlen`: count matching positions until `x` ends or the bytes differ.
When `y` is a proper prefix of `x` the C loop reads past the end of `y`; its precondition
`x < y` rules that case out, and we take such a read to mismatch. -/
def mlenLoop : List UInt8 → List UInt8 → ℕ
  | a :: as, b :: bs => if a = b then mlenLoop as bs + 1 else 0
  | _, _ => 0

/-- `kvldskey_mlen(x, y)`: the length of the matching prefix of `x < y`. -/
def kvldskeyMlen (x y : KVLDSKey) : ℕ := mlenLoop x.buf y.buf

/-- `x` and `y` agree on their first `m` bytes: the promise `kvldskey_cmp2` relies on. -/
def SharePrefix (m : ℕ) (x y : KVLDSKey) : Prop :=
  m ≤ x.len ∧ m ≤ y.len ∧ x.buf.take m = y.buf.take m

instance (m : ℕ) (x y : KVLDSKey) : Decidable (SharePrefix m x y) :=
  inferInstanceAs (Decidable (_ ∧ _ ∧ _))

theorem firstDiff_append (p xs ys : List UInt8) :
    firstDiff (p ++ xs) (p ++ ys) = firstDiff xs ys := by
  induction p with
  | nil => rfl
  | cons a p ih => simp [firstDiff, ih]

/-- The value `kvldskey_cmp` computes, on raw byte lists. -/
def cmpBytes (xs ys : List UInt8) : ℤ :=
  (firstDiff xs ys).getD ((xs.length : ℤ) - ys.length)

theorem cmpBytes_cons_cons (a b : UInt8) (xs ys : List UInt8) :
    cmpBytes (a :: xs) (b :: ys) =
      if a = b then cmpBytes xs ys else (a.toNat : ℤ) - b.toNat := by
  unfold cmpBytes
  by_cases h : a = b
  · simp only [firstDiff, h, if_true, List.length_cons]
    congr 1
    omega
  · simp [firstDiff, h]

/-- The sign of `cmpBytes` is the lexicographic order of the byte values. -/
theorem cmpBytes_spec : ∀ xs ys : List UInt8,
    (cmpBytes xs ys < 0 ↔ xs.map UInt8.toNat < ys.map UInt8.toNat) ∧
      (cmpBytes xs ys = 0 ↔ xs = ys)
  | [], [] => by simp [cmpBytes, firstDiff]
  | [], b :: ys => by
    simp only [cmpBytes, firstDiff, Option.getD_none, List.length_nil, List.length_cons,
      List.map_nil, List.map_cons, List.nil_lt_cons, iff_true, reduceCtorEq, iff_false]
    omega
  | a :: xs, [] => by
    simp only [cmpBytes, firstDiff, Option.getD_none, List.length_nil, List.length_cons,
      List.map_nil, List.map_cons, List.not_lt_nil, iff_false, reduceCtorEq]
    omega
  | a :: xs, b :: ys => by
    rw [cmpBytes_cons_cons]
    by_cases h : a = b
    · subst h
      simp only [if_true, List.map_cons, List.cons_lt_cons_iff, lt_irrefl, false_or, true_and,
        List.cons.injEq]
      exact cmpBytes_spec xs ys
    · have hne : a.toNat ≠ b.toNat := fun e => h (UInt8.toNat_inj.mp e)
      simp only [h, if_false, List.map_cons, List.cons_lt_cons_iff, List.cons.injEq, hne,
        false_and, or_false, iff_false]
      omega

theorem kvldskeyCmp_eq_cmpBytes (x y : KVLDSKey) : kvldskeyCmp x y = cmpBytes x.buf y.buf := by
  simp [kvldskeyCmp, kvldskeyCmp2, cmpBytes, len]

/-- `kvldskey_cmp(x, y) < 0` exactly when `x < y`. -/
theorem cmp_neg_iff {x y : KVLDSKey} : kvldskeyCmp x y < 0 ↔ x < y := by
  rw [kvldskeyCmp_eq_cmpBytes, lt_iff_bytes]
  exact (cmpBytes_spec x.buf y.buf).1

/-- `kvldskey_cmp(x, y) = 0` exactly when `x = y`. -/
theorem cmp_eq_zero_iff {x y : KVLDSKey} : kvldskeyCmp x y = 0 ↔ x = y := by
  rw [kvldskeyCmp_eq_cmpBytes, (cmpBytes_spec x.buf y.buf).2]
  constructor
  · intro h
    obtain ⟨bx, hx⟩ := x
    obtain ⟨by', hy⟩ := y
    simp only at h
    subst h
    rfl
  · rintro rfl
    rfl

/-- `kvldskey_cmp(x, y) > 0` exactly when `y < x`. -/
theorem cmp_pos_iff {x y : KVLDSKey} : 0 < kvldskeyCmp x y ↔ y < x := by
  have h₁ := (cmp_neg_iff (x := x) (y := y))
  have h₂ := (cmp_eq_zero_iff (x := x) (y := y))
  constructor
  · intro h
    rcases lt_trichotomy x y with hxy | rfl | hxy
    · exact absurd (h₁.mpr hxy) (by omega)
    · exact absurd (h₂.mpr rfl) (by omega)
    · exact hxy
  · intro h
    have hn : ¬ kvldskeyCmp x y < 0 := fun hc => lt_asymm h (h₁.mp hc)
    have hz : kvldskeyCmp x y ≠ 0 := fun hc => (ne_of_gt h) (h₂.mp hc)
    omega

/-- When its promise holds, `kvldskey_cmp2` computes `kvldskey_cmp`. -/
theorem cmp2_eq_cmp {m : ℕ} {x y : KVLDSKey} (h : SharePrefix m x y) :
    kvldskeyCmp2 x y m = kvldskeyCmp x y := by
  obtain ⟨hx, hy, htake⟩ := h
  have ex : x.buf = x.buf.take m ++ x.buf.drop m := (List.take_append_drop m x.buf).symm
  have ey : y.buf = x.buf.take m ++ y.buf.drop m := by
    rw [htake]; exact (List.take_append_drop m y.buf).symm
  rw [kvldskeyCmp_eq_cmpBytes, cmpBytes, ex, ey, firstDiff_append, kvldskeyCmp2]
  simp only [len, List.length_append, List.length_take, List.length_drop]
  simp only [len] at hx hy
  congr 1
  omega

theorem mlenLoop_spec : ∀ xs ys : List UInt8,
    mlenLoop xs ys ≤ xs.length ∧ mlenLoop xs ys ≤ ys.length ∧
      xs.take (mlenLoop xs ys) = ys.take (mlenLoop xs ys)
  | [], _ => by simp [mlenLoop]
  | _ :: _, [] => by simp [mlenLoop]
  | a :: xs, b :: ys => by
    by_cases h : a = b
    · subst h
      obtain ⟨h₁, h₂, h₃⟩ := mlenLoop_spec xs ys
      simp [mlenLoop, h₁, h₂, h₃]
    · simp [mlenLoop, h]

/-- `kvldskey_mlen(x, y)` is a length up to which `x` and `y` agree. -/
theorem sharePrefix_mlen (x y : KVLDSKey) : SharePrefix (kvldskeyMlen x y) x y :=
  mlenLoop_spec x.buf y.buf

theorem sharePrefix_zero (x y : KVLDSKey) : SharePrefix 0 x y := by
  simp [SharePrefix]

theorem SharePrefix.symm {m : ℕ} {x y : KVLDSKey} (h : SharePrefix m x y) :
    SharePrefix m y x :=
  ⟨h.2.1, h.1, h.2.2.symm⟩

theorem SharePrefix.trans {m : ℕ} {x y z : KVLDSKey} (h₁ : SharePrefix m x y)
    (h₂ : SharePrefix m y z) : SharePrefix m x z :=
  ⟨h₁.1, h₂.2.1, h₁.2.2.trans h₂.2.2⟩

theorem SharePrefix.mono {m m' : ℕ} {x y : KVLDSKey} (h : SharePrefix m x y) (hm : m' ≤ m) :
    SharePrefix m' x y := by
  obtain ⟨hx, hy, ht⟩ := h
  refine ⟨hm.trans hx, hm.trans hy, ?_⟩
  have := congrArg (List.take m') ht
  simpa [List.take_take, Nat.min_eq_left hm] using this

/-- A key between two keys that agree on their first `m` bytes agrees with them there. -/
theorem sharePrefix_of_between {m : ℕ} {lo k hi : KVLDSKey} (h : SharePrefix m lo hi)
    (h₁ : lo ≤ k) (h₂ : k ≤ hi) : SharePrefix m lo k := by
  obtain ⟨hlo, hhi, ht⟩ := h
  have hmap : lo.bytes.take m = hi.bytes.take m := by
    simp only [bytes, ← List.map_take, ht]
  obtain ⟨hk, hlen⟩ := List.take_eq_of_between (by simpa [bytes, len] using hlo) hmap
    (le_iff_bytes.mp h₁) (le_iff_bytes.mp h₂)
  refine ⟨hlo, by simpa [bytes, len] using hlen, ?_⟩
  simp only [bytes, ← List.map_take] at hk
  exact (List.map_injective_iff.mpr (fun a b e => UInt8.toNat_inj.mp e) hk).symm

end Kivaloo.Kvlds
