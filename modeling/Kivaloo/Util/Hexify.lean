import Mathlib
import Kivaloo.Lib.Json

/-!
# Hexadecimal (libcperciva/util/hexify.c)

`hexify` writes each byte as two characters of `hexchars`, the high four bits first, in lower
case.  `unhexify` checks that the first `2 * len` characters are hexadecimal digits, of either
case, and turns each pair back into a byte: `strchr` finds the first place of a character in
`hexchars`, and its low four bits are the digit, so `A` reads as `a` does.

`unhexify_hexify` is the round trip: `len` bytes are read back from their `2 * len`
characters, whatever follows them.  Conversely, what `unhexify` accepts is the `hexify` of the
bytes it returns, up to the case of the letters (`hexify_of_unhexify`).
-/

namespace Kivaloo.Util

open Kivaloo.Lib

/-- `hexchars`: the digits in lower case, then in upper case. -/
def hexchars : List UInt8 := ascii "0123456789abcdef0123456789ABCDEF"

/-- `hexchars[i]`. -/
def hexdigit (i : ℕ) : UInt8 := hexchars.getD i 0

/-- `hexify(in, out, len)`: the characters written before the terminating NUL. -/
def hexify (inp : List UInt8) : List UInt8 :=
  inp.flatMap fun (b : UInt8) => [hexdigit (b >>> 4).toNat, hexdigit (b &&& 0x0f).toNat]

/-- `in[i]` of a NUL-terminated string given by its characters: NUL at its end, where the loops
of `unhexify` stop. -/
def charAt (s : List UInt8) (i : ℕ) : UInt8 := s.getD i 0

/-- The test of the first loop of `unhexify`: the character is not NUL and is one of `hexchars`
(`strchr` also finds the NUL that ends `hexchars`, hence the test for NUL). -/
def isHexchar (c : UInt8) : Bool := c != 0 && hexchars.contains c

/-- `strchr(hexchars, c) - hexchars`: the first place of `c` in `hexchars`. -/
def hexpos (c : UInt8) : ℕ := hexchars.idxOf c

/-- A pair of characters converted by the second loop of `unhexify`: `(pos & 0x0f) << 4` for the
first, plus `pos & 0x0f` for the second. -/
def unhexByte (c₁ c₂ : UInt8) : UInt8 :=
  UInt8.ofNat ((hexpos c₁ &&& 0x0f) <<< 4) + UInt8.ofNat (hexpos c₂ &&& 0x0f)

/-- `unhexify(in, out, len)`: the `len` bytes, or `none` (a return of -1) where one of the first
`2 * len` characters is not a hexadecimal digit. -/
def unhexify (inp : List UInt8) (len : ℕ) : Option (List UInt8) :=
  if ∀ i < 2 * len, isHexchar (charAt inp i) = true then
    some ((List.range len).map fun i => unhexByte (charAt inp (2 * i)) (charAt inp (2 * i + 1)))
  else none

/-- The C locale's `tolower` on a character. -/
def asciiLower (c : UInt8) : UInt8 := if 65 ≤ c ∧ c ≤ 90 then c + 32 else c

/-! ## Digits -/

theorem hexpos_hexdigit : ∀ i < 16, hexpos (hexdigit i) = i := by decide

theorem isHexchar_hexdigit : ∀ i < 16, isHexchar (hexdigit i) = true := by decide

set_option maxRecDepth 4000 in
/-- A digit of either case names, through its low four bits, its lower-case digit. -/
theorem hexdigit_hexpos : ∀ c ∈ hexchars, hexdigit (hexpos c % 16) = asciiLower c := by
  decide

theorem mem_of_isHexchar {c : UInt8} (h : isHexchar c = true) : c ∈ hexchars := by
  simp only [isHexchar, Bool.and_eq_true, List.contains_iff_mem] at h
  exact h.2

theorem and_fifteen (d : ℕ) : d &&& 0x0f = d % 16 := Nat.and_two_pow_sub_one_eq_mod d 4

@[simp] theorem hexify_nil : hexify [] = [] := by simp [hexify]

/-- A byte is written as the digits of its high and its low four bits. -/
@[simp] theorem hexify_cons (b : UInt8) (bs : List UInt8) :
    hexify (b :: bs) = hexdigit (b.toNat / 16) :: hexdigit (b.toNat % 16) :: hexify bs := by
  have hhi : (b >>> 4).toNat = b.toNat / 16 := by
    simp [UInt8.toNat_shiftRight, Nat.shiftRight_eq_div_pow]
  have hlo : (b &&& 0x0f).toNat = b.toNat % 16 := by
    rw [UInt8.toNat_and]
    exact and_fifteen b.toNat
  simp only [hexify, List.flatMap_cons, hhi, hlo, List.cons_append, List.nil_append]

@[simp] theorem hexify_append (l r : List UInt8) : hexify (l ++ r) = hexify l ++ hexify r :=
  List.flatMap_append

@[simp] theorem length_hexify (bs : List UInt8) : (hexify bs).length = 2 * bs.length := by
  induction bs with
  | nil => simp
  | cons b bs ih =>
    rw [hexify_cons, List.length_cons, List.length_cons, ih, List.length_cons]
    ring

/-- The byte of a pair of characters: the digit of the first, sixteen times, plus the digit of
the second. -/
theorem toNat_unhexByte (c₁ c₂ : UInt8) :
    (unhexByte c₁ c₂).toNat = hexpos c₁ % 16 * 16 + hexpos c₂ % 16 := by
  have h₁ := Nat.mod_lt (hexpos c₁) (by decide : 0 < 16)
  have h₂ := Nat.mod_lt (hexpos c₂) (by decide : 0 < 16)
  simp only [unhexByte, and_fifteen, Nat.shiftLeft_eq, UInt8.toNat_add, UInt8.toNat_ofNat']
  omega

theorem unhexByte_hexdigit (b : UInt8) :
    unhexByte (hexdigit (b.toNat / 16)) (hexdigit (b.toNat % 16)) = b := by
  have hb := b.toNat_lt
  apply UInt8.toNat_inj.mp
  rw [toNat_unhexByte, hexpos_hexdigit _ (by omega), hexpos_hexdigit _ (by omega)]
  omega

/-! ## The loops of `unhexify`, two characters at a time -/

theorem unhexify_zero (s : List UInt8) : unhexify s 0 = some [] := by
  simp [unhexify]

theorem charAt_drop_two (s : List UInt8) (i : ℕ) : charAt (s.drop 2) i = charAt s (i + 2) := by
  simp only [charAt, List.getD_eq_getElem?_getD, List.getElem?_drop]
  rw [Nat.add_comm]

/-- `unhexify` reads a pair of characters and goes on after them. -/
theorem unhexify_succ (s : List UInt8) (len : ℕ) :
    unhexify s (len + 1) =
      if isHexchar (charAt s 0) = true ∧ isHexchar (charAt s 1) = true then
        (unhexify (s.drop 2) len).map (unhexByte (charAt s 0) (charAt s 1) :: ·)
      else none := by
  -- the check of `2 * len + 2` characters is the check of the first two and of the rest
  have hcheck : (∀ i < 2 * (len + 1), isHexchar (charAt s i) = true) ↔
      (isHexchar (charAt s 0) = true ∧ isHexchar (charAt s 1) = true) ∧
        ∀ i < 2 * len, isHexchar (charAt (s.drop 2) i) = true := by
    simp only [charAt_drop_two]
    constructor
    · intro h
      exact ⟨⟨h 0 (by omega), h 1 (by omega)⟩, fun i hi => h (i + 2) (by omega)⟩
    · rintro ⟨⟨h₀, h₁⟩, h⟩ i hi
      rcases i with _ | _ | i
      · exact h₀
      · exact h₁
      · exact h i (by omega)
  have hbytes : (List.range (len + 1)).map (fun i => unhexByte (charAt s (2 * i)) (charAt s (2 * i + 1))) =
      unhexByte (charAt s 0) (charAt s 1) ::
        (List.range len).map fun i => unhexByte (charAt (s.drop 2) (2 * i)) (charAt (s.drop 2) (2 * i + 1)) := by
    rw [List.range_succ_eq_map, List.map_cons, List.map_map]
    congr 1
    refine List.map_congr_left fun i _ => ?_
    simp only [Function.comp, charAt_drop_two]
    congr 2
  by_cases h : (isHexchar (charAt s 0) = true ∧ isHexchar (charAt s 1) = true) ∧
      ∀ i < 2 * len, isHexchar (charAt (s.drop 2) i) = true
  · rw [unhexify, if_pos (hcheck.mpr h), if_pos h.1, unhexify, if_pos h.2, Option.map_some, hbytes]
  · rw [unhexify, if_neg (mt hcheck.mp h)]
    by_cases h₀ : isHexchar (charAt s 0) = true ∧ isHexchar (charAt s 1) = true
    · rw [if_pos h₀, unhexify, if_neg fun h' => h ⟨h₀, h'⟩, Option.map_none]
    · rw [if_neg h₀]

/-! ## Round trip -/

/-- `len` bytes are read back from their `hexify`, whatever follows it. -/
theorem unhexify_hexify (bs rest : List UInt8) :
    unhexify (hexify bs ++ rest) bs.length = some bs := by
  induction bs with
  | nil => exact unhexify_zero _
  | cons b bs ih =>
    have hb := b.toNat_lt
    rw [List.length_cons, unhexify_succ, hexify_cons]
    simp only [List.cons_append, charAt, List.getD_cons_zero, List.getD_cons_succ, List.drop_succ_cons,
      List.drop_zero]
    rw [if_pos ⟨isHexchar_hexdigit _ (by omega), isHexchar_hexdigit _ (by omega)⟩, ih,
      Option.map_some, unhexByte_hexdigit]

/-- What `unhexify` accepts is `2 * len` hexadecimal digits, and they are the `hexify` of the
bytes returned, up to the case of the letters. -/
theorem hexify_of_unhexify :
    ∀ {len : ℕ} {s bs : List UInt8}, unhexify s len = some bs →
      2 * len ≤ s.length ∧ hexify bs = (s.take (2 * len)).map asciiLower
  | 0, s, bs, h => by
    rw [unhexify_zero, Option.some.injEq] at h
    subst h
    simp
  | len + 1, s, bs, h => by
    rw [unhexify_succ] at h
    split_ifs at h with hpair
    obtain ⟨bs', hbs', rfl⟩ := Option.map_eq_some_iff.mp h
    obtain ⟨hlen, hhex⟩ := hexify_of_unhexify hbs'
    -- the two characters read are in the string: `charAt` past its end is NUL
    match s, hpair with
    | c₁ :: c₂ :: rest, ⟨h₁, h₂⟩ =>
      simp only [charAt, List.getD_cons_zero, List.getD_cons_succ] at h₁ h₂
      simp only [List.drop_succ_cons, List.drop_zero] at hlen hhex
      have hd := toNat_unhexByte c₁ c₂
      have hm₁ := Nat.mod_lt (hexpos c₁) (by decide : 0 < 16)
      have hm₂ := Nat.mod_lt (hexpos c₂) (by decide : 0 < 16)
      refine ⟨by simp only [List.length_cons]; omega, ?_⟩
      rw [show 2 * (len + 1) = 2 * len + 1 + 1 by ring, List.take_succ_cons, List.take_succ_cons,
        List.map_cons, List.map_cons, ← hhex, charAt, charAt, List.getD_cons_zero,
        List.getD_cons_succ, List.getD_cons_zero, hexify_cons, hd,
        show (hexpos c₁ % 16 * 16 + hexpos c₂ % 16) / 16 = hexpos c₁ % 16 by omega,
        show (hexpos c₁ % 16 * 16 + hexpos c₂ % 16) % 16 = hexpos c₂ % 16 by omega,
        hexdigit_hexpos c₁ (mem_of_isHexchar h₁), hexdigit_hexpos c₂ (mem_of_isHexchar h₂)]
    | [], ⟨h₁, _⟩ => simp [charAt, isHexchar] at h₁
    | [_], ⟨_, h₂⟩ => simp [charAt, isHexchar] at h₂

example : hexify [0x1f, 0xa0] = ascii "1fa0" := by decide
example : unhexify (ascii "1FA0") 2 = some [0x1f, 0xa0] := by decide

end Kivaloo.Util
