import Mathlib
import Kivaloo.Lib.Json

/-!
# Base-64 (libcperciva/util/b64encode.c)

`b64encode` writes each group of up to three bytes as four characters, the digits of its 24-bit
word six bits at a time, with `=` in place of the digits past the end of the input.
`b64decode` checks the characters (digits, then at most two `=`), turns each group of four back
into three bytes, and drops one byte for each `=`.

`b64decode_b64encode` is the round trip: every byte string is decoded back from its encoding.
The encoding is also plain JSON string text (`isPlain_b64encode`).

The C code shifts a `uint32_t` word left by six bits per character and reads bits 18 to 23; the
bits shifted past bit 31 are never read, so the model reads bits `18 - 6j` of the word directly.
-/

namespace Kivaloo.Util

open Kivaloo.Lib JValue

/-- `b64chars`: the 64 digits, then `=`. -/
def b64chars : List UInt8 :=
  ascii "ABCDEFGHIJKLMNOPQRSTUVWXYZabcdefghijklmnopqrstuvwxyz0123456789+/="

/-- The digit for the six bits `i`: `b64chars[i]`. -/
def b64digit (i : ℕ) : UInt8 := b64chars.getD i 0

/-- The word of a group, the bytes missing at the end read as zero: `t <<= 8; if (j < len)
t += *in++;` three times. -/
def b64word (a b c : UInt8) : ℕ := a.toNat * 2 ^ 16 + b.toNat * 2 ^ 8 + c.toNat

/-- The four characters written for the word `t` with `len` input bytes left: a digit where
`j <= len`, and `=` after. -/
def b64quad (t len : ℕ) : List UInt8 :=
  (List.range 4).map fun j => if j ≤ len then b64digit (t / 2 ^ (18 - 6 * j) % 64) else 61

/-- `b64encode(in, out, len)`: the characters written before the terminating NUL. -/
def b64encode : List UInt8 → List UInt8
  | [] => []
  | [a] => b64quad (b64word a 0 0) 1
  | [a, b] => b64quad (b64word a b 0) 2
  | a :: b :: c :: rest => b64quad (b64word a b c) (rest.length + 3) ++ b64encode rest

/-- `strchr(b64chars, c) - b64chars`: the position of `c` among `b64chars`. -/
def b64pos (c : UInt8) : ℕ := b64chars.idxOf c

/-- The check loop of `b64decode` from the count `dead` of `=`s so far: every character is
one of `b64chars` (`strchr` also finds the NUL that ends `b64chars`, hence the test for NUL),
and no digit follows a `=`.  The number of `=`s, or `none` where the input is bad. -/
def b64checkLoop : List UInt8 → ℕ → Option ℕ
  | [], dead => some dead
  | c :: cs, dead =>
    if c = 0 ∨ c ∉ b64chars then none
    else
      let dead := if c = 61 then dead + 1 else dead
      if c ≠ 61 ∧ 0 < dead then none else b64checkLoop cs dead

/-- Four characters back to three bytes: `t` gathers six bits from each (`pos & 0x3f`, so `=`
gives zeros), and the bytes are its bits 16 to 23, 8 to 15 and 0 to 7. -/
def b64group (a b c d : UInt8) : List UInt8 :=
  let t := b64pos a % 64 * 2 ^ 18 + b64pos b % 64 * 2 ^ 12 + b64pos c % 64 * 2 ^ 6 + b64pos d % 64
  [UInt8.ofNat (t / 2 ^ 16), UInt8.ofNat (t / 2 ^ 8), UInt8.ofNat t]

/-- The decoding loop of `b64decode`, four characters at a time. -/
def b64decodeLoop : List UInt8 → List UInt8
  | a :: b :: c :: d :: rest => b64group a b c d ++ b64decodeLoop rest
  | _ => []

/-- `b64decode(in, inlen, out, outlen)`: the bytes, or `none` where the input is not valid
base-64 text. -/
def b64decode (inp : List UInt8) : Option (List UInt8) :=
  if inp.length % 4 ≠ 0 then none
  else
    match b64checkLoop inp 0 with
    | none => none
    | some dead =>
      if 2 < dead then none
      else
        let out := b64decodeLoop inp
        -- `*outlen -= deadbytes`
        some (out.take (out.length - dead))

/-! ## The table -/

theorem b64pos_digit : ∀ i < 64, b64pos (b64digit i) = i := by decide

theorem b64pos_pad : b64pos 61 = 64 := by decide

set_option maxRecDepth 4000 in
theorem b64digit_valid :
    ∀ i < 64, ¬(b64digit i = 0 ∨ b64digit i ∉ b64chars) ∧ b64digit i ≠ 61 := by
  decide

set_option maxRecDepth 4000 in
theorem isPlain_digit : ∀ i < 64, isPlain [b64digit i] = true := by decide

/-! ## One group -/

section Group

variable (a b c : UInt8)

/-- The four characters of a group with at least one byte. -/
theorem b64quad_eq (t len : ℕ) (hlen : 1 ≤ len) :
    b64quad t len = [b64digit (t / 2 ^ 18 % 64), b64digit (t / 2 ^ 12 % 64),
      if 2 ≤ len then b64digit (t / 2 ^ 6 % 64) else 61,
      if 3 ≤ len then b64digit (t % 64) else 61] := by
  simp [b64quad, List.range_succ, hlen]

/-- Six bits at a time, the digits of a 24-bit word add up to it. -/
theorem sum_digits {t : ℕ} (ht : t < 2 ^ 24) :
    t / 2 ^ 18 % 64 % 64 * 2 ^ 18 + t / 2 ^ 12 % 64 % 64 * 2 ^ 12 + t / 2 ^ 6 % 64 % 64 * 2 ^ 6 +
      t % 64 % 64 = t := by
  omega

theorem ofNat_eq_of_mod {n : ℕ} {x : UInt8} (h : n % 256 = x.toNat) : UInt8.ofNat n = x :=
  UInt8.toNat_inj.mp (by rw [UInt8.toNat_ofNat', h])

theorem b64word_lt : b64word a b c < 2 ^ 24 := by
  have := a.toNat_lt
  have := b.toNat_lt
  have := c.toNat_lt
  simp only [b64word]
  omega

/-- A whole group decodes back to its three bytes. -/
theorem b64group_full :
    b64group (b64digit (b64word a b c / 2 ^ 18 % 64)) (b64digit (b64word a b c / 2 ^ 12 % 64))
      (b64digit (b64word a b c / 2 ^ 6 % 64)) (b64digit (b64word a b c % 64)) = [a, b, c] := by
  have hw := sum_digits (b64word_lt a b c)
  simp only [b64group, b64pos_digit _ (Nat.mod_lt _ (by decide : 0 < 64)), hw]
  have := a.toNat_lt
  have := b.toNat_lt
  have := c.toNat_lt
  simp only [b64word, List.cons.injEq, and_true]
  refine ⟨ofNat_eq_of_mod ?_, ofNat_eq_of_mod ?_, ofNat_eq_of_mod ?_⟩ <;> omega

/-- A group of one byte decodes to it and two zero bytes. -/
theorem b64group_one :
    b64group (b64digit (b64word a 0 0 / 2 ^ 18 % 64)) (b64digit (b64word a 0 0 / 2 ^ 12 % 64))
      61 61 = [a, 0, 0] := by
  have hlt := a.toNat_lt
  simp only [b64group, b64pos_digit _ (Nat.mod_lt _ (by decide : 0 < 64)), b64pos_pad]
  simp only [b64word, List.cons.injEq, and_true]
  refine ⟨ofNat_eq_of_mod ?_, ofNat_eq_of_mod ?_, ofNat_eq_of_mod ?_⟩ <;> simp <;> omega

/-- A group of two bytes decodes to them and a zero byte. -/
theorem b64group_two :
    b64group (b64digit (b64word a b 0 / 2 ^ 18 % 64)) (b64digit (b64word a b 0 / 2 ^ 12 % 64))
      (b64digit (b64word a b 0 / 2 ^ 6 % 64)) 61 = [a, b, 0] := by
  have := a.toNat_lt
  have := b.toNat_lt
  simp only [b64group, b64pos_digit _ (Nat.mod_lt _ (by decide : 0 < 64)), b64pos_pad]
  simp only [b64word, List.cons.injEq, and_true]
  refine ⟨ofNat_eq_of_mod ?_, ofNat_eq_of_mod ?_, ofNat_eq_of_mod ?_⟩ <;> simp <;> omega

end Group

/-! ## The whole text -/

/-- The number of `=`s written for `n` bytes. -/
def b64padding (n : ℕ) : ℕ := (3 - n % 3) % 3

theorem b64checkLoop_digit {i : ℕ} (hi : i < 64) (cs : List UInt8) :
    b64checkLoop (b64digit i :: cs) 0 = b64checkLoop cs 0 := by
  obtain ⟨hvalid, hpad⟩ := b64digit_valid i hi
  simp [b64checkLoop, hvalid, hpad]

theorem length_b64encode (v : List UInt8) : (b64encode v).length = 4 * ((v.length + 2) / 3) := by
  induction v using b64encode.induct with
  | case1 => rfl
  | case2 a => simp [b64encode, b64quad]
  | case3 a b => simp [b64encode, b64quad]
  | case4 a b c rest ih =>
    simp only [b64encode, List.length_append, ih, List.length_cons, b64quad, List.length_map,
      List.length_range]
    omega

/-- The check loop of `b64decode` passes over an encoding, counting its `=`s. -/
theorem b64checkLoop_b64encode (v : List UInt8) :
    b64checkLoop (b64encode v) 0 = some (b64padding v.length) := by
  have hd : ∀ t, t % 64 < 64 := fun t => Nat.mod_lt _ (by decide)
  induction v using b64encode.induct with
  | case1 => rfl
  | case2 a =>
    simp only [b64encode, b64quad_eq _ _ (Nat.le_refl 1), if_neg (by decide : ¬2 ≤ 1),
      if_neg (by decide : ¬3 ≤ 1), b64checkLoop_digit (hd _)]
    rfl
  | case3 a b =>
    simp only [b64encode, b64quad_eq _ _ (by decide : 1 ≤ 2), if_pos (Nat.le_refl 2),
      if_neg (by decide : ¬3 ≤ 2), b64checkLoop_digit (hd _)]
    rfl
  | case4 a b c rest ih =>
    simp only [b64encode, b64quad_eq _ _ (by omega : 1 ≤ rest.length + 3),
      if_pos (by omega : 2 ≤ rest.length + 3), if_pos (by omega : 3 ≤ rest.length + 3),
      List.cons_append, List.nil_append, b64checkLoop_digit (hd _), ih]
    simp only [b64padding, List.length_cons]
    congr 2
    omega

/-- The decoding loop turns an encoding back into its bytes, followed by a zero for each `=`. -/
theorem b64decodeLoop_b64encode (v : List UInt8) :
    b64decodeLoop (b64encode v) = v ++ List.replicate (b64padding v.length) 0 := by
  induction v using b64encode.induct with
  | case1 => rfl
  | case2 a =>
    simp only [b64encode, b64quad_eq _ _ (Nat.le_refl 1), if_neg (by decide : ¬2 ≤ 1),
      if_neg (by decide : ¬3 ≤ 1), b64decodeLoop, b64group_one]
    rfl
  | case3 a b =>
    simp only [b64encode, b64quad_eq _ _ (by decide : 1 ≤ 2), if_pos (Nat.le_refl 2),
      if_neg (by decide : ¬3 ≤ 2), b64decodeLoop, b64group_two]
    rfl
  | case4 a b c rest ih =>
    simp only [b64encode, b64quad_eq _ _ (by omega : 1 ≤ rest.length + 3),
      if_pos (by omega : 2 ≤ rest.length + 3), if_pos (by omega : 3 ≤ rest.length + 3),
      List.cons_append, List.nil_append, b64decodeLoop, b64group_full, ih]
    have hpad : b64padding (rest.length + 3) = b64padding rest.length := by
      simp only [b64padding]
      omega
    simp [hpad]

/-- Every byte string is decoded back from its encoding. -/
theorem b64decode_b64encode (v : List UInt8) : b64decode (b64encode v) = some v := by
  have hlen : ¬(b64encode v).length % 4 ≠ 0 := by
    rw [length_b64encode]
    omega
  have hpad : ¬2 < b64padding v.length := by
    simp only [b64padding]
    omega
  simp only [b64decode, if_neg hlen, b64checkLoop_b64encode, if_neg hpad, b64decodeLoop_b64encode]
  simp

example : b64encode (ascii "Ma") = ascii "TWE=" := by decide

/-- An encoding is plain JSON string text. -/
theorem isPlain_b64encode (v : List UInt8) : isPlain (b64encode v) = true := by
  have hd : ∀ t, isPlain [b64digit (t % 64)] = true :=
    fun t => isPlain_digit _ (Nat.mod_lt _ (by decide))
  simp only [isPlain_cons, isPlain_nil, Bool.and_true] at hd
  induction v using b64encode.induct with
  | case1 => rfl
  | case2 a =>
    simp only [b64encode, b64quad_eq _ _ (Nat.le_refl 1), if_neg (by decide : ¬2 ≤ 1),
      if_neg (by decide : ¬3 ≤ 1), isPlain_cons, hd]
    rfl
  | case3 a b =>
    simp only [b64encode, b64quad_eq _ _ (by decide : 1 ≤ 2), if_pos (Nat.le_refl 2),
      if_neg (by decide : ¬3 ≤ 2), isPlain_cons, hd]
    rfl
  | case4 a b c rest ih =>
    simp only [b64encode, b64quad_eq _ _ (by omega : 1 ≤ rest.length + 3),
      if_pos (by omega : 2 ≤ rest.length + 3), if_pos (by omega : 3 ≤ rest.length + 3),
      List.cons_append, List.nil_append, isPlain_cons, ih, hd]
    rfl

end Kivaloo.Util
