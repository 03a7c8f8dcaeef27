import Mathlib

/-!
# Big-endian numbers in bytes

`beEnc w n` is the `w`-byte big-endian encoding of `n mod 256 ^ w` (what `be16enc`, `be32enc` and
`be64enc` write for `w = 2, 4, 8`), and `beDec` reads a list of bytes as a big-endian number
(`be16dec` and so on, on the bytes they read).  Reading back gives the number modulo the width
(`beDec_beEnc`), so a number below `256 ^ w` comes back as itself; and `w` bytes read as a
number and written back are the same bytes (`beEnc_beDec`).
-/

namespace Kivaloo.Lib

/-- The `w` bytes of `n mod 256 ^ w`, most significant first. -/
def beEnc : ℕ → ℕ → List UInt8
  | 0, _ => []
  | w + 1, n => beEnc w (n / 256) ++ [(n % 256).toUInt8]

/-- The number a list of bytes spells, most significant first. -/
def beDec (bs : List UInt8) : ℕ := bs.foldl (fun acc b => acc * 256 + b.toNat) 0

@[simp] theorem length_beEnc (w n : ℕ) : (beEnc w n).length = w := by
  induction w generalizing n with
  | zero => rfl
  | succ w ih => simp [beEnc, ih]

/-- The fold of `beDec` from any accumulator. -/
theorem foldl_beEnc (w : ℕ) :
    ∀ n acc : ℕ, (beEnc w n).foldl (fun acc b => acc * 256 + b.toNat) acc =
      acc * 256 ^ w + n % 256 ^ w := by
  induction w with
  | zero => simp [beEnc, Nat.mod_one]
  | succ w ih =>
    intro n acc
    have hbyte : ((n % 256).toUInt8).toNat = n % 256 := by
      simp [Nat.toUInt8]
    -- the low byte comes last: `n mod 256^(w+1)` is `n mod 256` plus 256 times the rest
    have hmod : n % 256 ^ (w + 1) = n % 256 + 256 * (n / 256 % 256 ^ w) := by
      rw [pow_succ', Nat.mod_mul]
    rw [beEnc, List.foldl_append, ih, List.foldl_cons, List.foldl_nil, hbyte, hmod, pow_succ]
    ring

@[simp] theorem beDec_beEnc (w n : ℕ) : beDec (beEnc w n) = n % 256 ^ w := by
  simp [beDec, foldl_beEnc]

/-- Reading one more byte shifts the number read so far by a byte. -/
theorem beDec_append_singleton (bs : List UInt8) (b : UInt8) :
    beDec (bs ++ [b]) = beDec bs * 256 + b.toNat := by
  simp [beDec, List.foldl_append]

theorem beEnc_beDec (bs : List UInt8) : beEnc bs.length (beDec bs) = bs := by
  induction bs using List.reverseRecOn with
  | nil => rfl
  | append_singleton bs b ih =>
    have hb := b.toNat_lt
    -- the last byte is the low byte, and the bytes before it are the number divided by 256
    have hdiv : (beDec bs * 256 + b.toNat) / 256 = beDec bs := by omega
    have hmod : ((beDec bs * 256 + b.toNat) % 256).toUInt8 = b := by
      rw [Nat.mul_add_mod_self_right, Nat.mod_eq_of_lt hb]
      exact UInt8.toNat_inj.mp (by simp [Nat.toUInt8])
    rw [List.length_append, List.length_singleton, beDec_append_singleton, beEnc, hdiv, ih, hmod]

/-- A number read from `w` bytes is below `256 ^ w`. -/
theorem beDec_lt (bs : List UInt8) : beDec bs < 256 ^ bs.length := by
  have h := beDec_beEnc bs.length (beDec bs)
  rw [beEnc_beDec] at h
  rw [h]
  exact Nat.mod_lt _ (by positivity)

/-- A `w`-byte field at the front of a record reads back as its number modulo the width. -/
@[simp] theorem beDec_take_beEnc_append (w n : ℕ) (rest : List UInt8) :
    beDec ((beEnc w n ++ rest).take w) = n % 256 ^ w := by
  rw [List.take_left' (length_beEnc w n), beDec_beEnc]

/-- A field of `w` bytes read from its `w` bytes. -/
@[simp] theorem beDec_take_beEnc (w n : ℕ) : beDec ((beEnc w n).take w) = n % 256 ^ w := by
  simpa using beDec_take_beEnc_append w n []

/-- The first `w` bytes of a record of at least `w` bytes encode the number they read as. -/
theorem beEnc_beDec_take {bs : List UInt8} {w : ℕ} (h : w ≤ bs.length) :
    beEnc w (beDec (bs.take w)) = bs.take w := by
  have hbs := beEnc_beDec (bs.take w)
  rwa [List.length_take_of_le h] at hbs

end Kivaloo.Lib
