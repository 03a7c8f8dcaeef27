import Mathlib
import Kivaloo.LbsS3.KeepSet

/-!
# FindLast and the start of lbs-s3 (lbs-s3/findlast.c, lbs-s3/s3state.c)

On launch lbs-s3 locates the last object written to S3 by HEAD requests: for the powers of two
until one is missing, then by a binary search between the last power found and the next, and
last, backwards from there past objects that are empty.  `s3state_init` turns the object and its
size into the last block written, PUTs an empty object after it, and starts writing at the
object after that.

The S3 daemon's replies are a function of the object number.  Under the DESIGN's consistency
assumptions, with `X` the last object PUT, HEAD finds each object of `FINDSET(X)` and no object
above `X` (`HeadsFind`); the DESIGN's theorem is then that lines 1-12 of Algorithm FindLast
return `X` (`findlastSearch_eq`).  The proof is the DESIGN's: the powers of two stop at the
largest one below `X` (`findlastPow_eq`), and the binary search keeps `X` rounded down to twice
its step (`findlastBin_eq`), probing only roundings of `X`, which are in `FINDSET(X)`.  The keep
set invariant of garbage collection makes the assumption hold in every reachable state of the
bucket (`reachable_findlastSearch`).

The code goes on past the DESIGN: it scans back from `X` to the last non-empty object `E`, and
`s3state_init` leaves its gap of one object after `E`, not after `X`.  Writing then resumes at
object `E + 2`, which is two objects past the last object stored only where `E = X`
(`s3stateInit_resumes`): after a start that wrote nothing, the next one resumes right after the
empty object the first one PUT.
-/

namespace Kivaloo.LbsS3

open Kivaloo.Lib

/-- Why `findlast` fails, with the warning it prints. -/
inductive FindlastError where
  /-- `head` could not issue the request or wait for it: "Error issuing HEAD request". -/
  | headFailed
  /-- A status other than 200 or 404: "HEAD returned status %d!". -/
  | status (s : ℤ)
  /-- The backward scan met a missing object: "Cannot find non-empty S3 object". -/
  | noNonEmpty
  deriving DecidableEq, Repr

/-- The S3 daemon's replies to HEAD requests by object number: none where the request could not
be issued or waited for, else its status and Content-Length. -/
abbrev Heads := ℕ → Option (ℤ × ℕ)

/-- `head(Q_S3, bucket, N, &status, &clen)`.  Its test `status == 0` compares the pointer
`status`, never NULL, so a reply with status 0 (a failed request) is passed on. -/
def head (heads : Heads) (N : ℕ) : Except FindlastError (ℤ × ℕ) :=
  match heads N with
  | none => .error .headFailed
  | some r => .ok r

/-- The first loop of `findlast`: HEAD of `2 ^ i` for `i` up to 63 (`n` iterations are left),
keeping in `(L, olen)` the last object found, until the first 404. -/
def findlastPow (heads : Heads) : ℕ → ℕ → ℕ × ℕ → Except FindlastError (ℕ × ℕ)
  | 0, _, r => .ok r
  | n + 1, i, r => do
    let (status, clen) ← head heads (2 ^ i)
    if status = 404 then return r
    if status ≠ 200 then throw (.status status)
    findlastPow heads n (i + 1) (2 ^ i, clen)

/-- The second loop of `findlast`, a binary search: HEAD of `L + N` for `N` from `L / 2` down by
halves, moving `L` up to each object found. -/
def findlastBin (heads : Heads) (N : ℕ) (r : ℕ × ℕ) : Except FindlastError (ℕ × ℕ) :=
  if N = 0 then .ok r else do
    let (status, clen) ← head heads (r.1 + N)
    if status = 200 then findlastBin heads (N / 2) (r.1 + N, clen)
    else if status ≠ 404 then throw (.status status)
    else findlastBin heads (N / 2) r
termination_by N
decreasing_by all_goals omega

/-- The third loop of `findlast`: while the object found is empty and not object 1, step back one
object. -/
def findlastBack (heads : Heads) : ℕ → ℕ → Except FindlastError (ℕ × ℕ)
  | L + 2, 0 => do
    let (status, clen) ← head heads (L + 1)
    if status = 404 then throw .noNonEmpty
    if status ≠ 200 then throw (.status status)
    findlastBack heads (L + 1) clen
  | L, olen => .ok (L, olen)

/-- Lines 1-12 of Algorithm FindLast in the DESIGN: the first two loops of `findlast`. -/
def findlastSearch (heads : Heads) : Except FindlastError (ℕ × ℕ) := do
  let r ← findlastPow heads 64 0 (0, 0)
  findlastBin heads (r.1 / 2) r

/-- `findlast(Q_S3, bucket, &L, &olen)`: the last non-empty object and its size, `(0, 0)` where
there are none. -/
def findlast (heads : Heads) : Except FindlastError (ℕ × ℕ) := do
  let r ← findlastSearch heads
  findlastBack heads r.1 r.2

/-! ## One step of each loop -/

section Steps

variable {heads : Heads} {size : ℕ → ℕ}

theorem head_of_eq {N : ℕ} {r : ℤ × ℕ} (h : heads N = some r) : head heads N = .ok r := by
  simp [head, h]

theorem findlastPow_found {n i : ℕ} {r : ℕ × ℕ} {clen : ℕ} (h : heads (2 ^ i) = some (200, clen)) :
    findlastPow heads (n + 1) i r = findlastPow heads n (i + 1) (2 ^ i, clen) := by
  simp [findlastPow, head_of_eq h, bind, Except.bind]

theorem findlastPow_missing {n i : ℕ} {r : ℕ × ℕ} {clen : ℕ}
    (h : heads (2 ^ i) = some (404, clen)) : findlastPow heads (n + 1) i r = .ok r := by
  simp [findlastPow, head_of_eq h, bind, Except.bind]
  rfl

theorem findlastBin_zero (r : ℕ × ℕ) : findlastBin heads 0 r = .ok r := by
  rw [findlastBin, if_pos rfl]

theorem findlastBin_found {N : ℕ} (hN : N ≠ 0) {r : ℕ × ℕ} {clen : ℕ}
    (h : heads (r.1 + N) = some (200, clen)) :
    findlastBin heads N r = findlastBin heads (N / 2) (r.1 + N, clen) := by
  rw [findlastBin, if_neg hN]
  simp [head_of_eq h, bind, Except.bind]

theorem findlastBin_missing {N : ℕ} (hN : N ≠ 0) {r : ℕ × ℕ} {clen : ℕ}
    (h : heads (r.1 + N) = some (404, clen)) :
    findlastBin heads N r = findlastBin heads (N / 2) r := by
  rw [findlastBin, if_neg hN]
  simp [head_of_eq h, bind, Except.bind]

theorem findlastBack_found {L clen : ℕ} (h : heads (L + 1) = some (200, clen)) :
    findlastBack heads (L + 2) 0 = findlastBack heads (L + 1) clen := by
  simp [findlastBack, head_of_eq h, bind, Except.bind]

theorem findlastSearch_of_pow {r : ℕ × ℕ} (h : findlastPow heads 64 0 (0, 0) = .ok r) :
    findlastSearch heads = findlastBin heads (r.1 / 2) r := by
  simp [findlastSearch, h, bind, Except.bind]

theorem findlast_of_search {r : ℕ × ℕ} (h : findlastSearch heads = .ok r) :
    findlast heads = findlastBack heads r.1 r.2 := by
  simp [findlast, h, bind, Except.bind]

/-- The backward scan stops at a non-empty object, and at object 1 or below. -/
theorem findlastBack_stop {L olen : ℕ} (h : 0 < olen ∨ L ≤ 1) :
    findlastBack heads L olen = .ok (L, olen) := by
  rcases h with h | h
  · obtain ⟨o, rfl⟩ : ∃ o, olen = o + 1 := ⟨olen - 1, by omega⟩
    rcases L with _ | _ | L <;> rfl
  · rcases L with _ | _ | L
    · rfl
    · rfl
    · omega

end Steps

/-! ## The DESIGN's theorem -/

/-- The replies of S3 when `X` is the last object PUT, under the DESIGN's consistency
assumptions: HEAD finds each object of `FINDSET(X)`, with its size, and no object above `X`. -/
structure HeadsFind (heads : Heads) (size : ℕ → ℕ) (X : ℕ) : Prop where
  found : ∀ Y ∈ findset X, 1 ≤ Y → heads Y = some (200, size Y)
  above : ∀ Y, X < Y → ∃ c, heads Y = some (404, c)

theorem two_pow_mem_findset {i N : ℕ} (h : 2 ^ i ≤ N) : 2 ^ i ∈ findset N := by
  rcases h.lt_or_eq with h | h
  · exact Or.inl ⟨i, h, rfl⟩
  · rw [h]
    exact self_mem_findset N

/-- Rounding down to a multiple of `2 ^ k` keeps more of `X` than rounding to `2 ^ (k + 1)`:
bit `k` of `X` is the difference. -/
theorem mod_two_pow_succ_eq (X k : ℕ) :
    X % 2 ^ (k + 1) = X % 2 ^ k ∨ X % 2 ^ (k + 1) = X % 2 ^ k + 2 ^ k := by
  rw [Nat.mod_pow_succ]
  rcases Nat.mod_two_eq_zero_or_one (X / 2 ^ k) with h | h <;> simp [h]

section Search

variable {heads : Heads} {size : ℕ → ℕ} {X : ℕ}

/-- The first loop stops at the largest power of two up to `X`: each power up to `X` is in
`FINDSET(X)` and found, the next one is above `X` and missing. -/
theorem findlastPow_eq (hf : HeadsFind heads size X) (hX : X < 2 ^ 64) :
    ∀ n i r, i + n = 64 → findlastPow heads n i r =
      .ok (if 2 ^ i ≤ X then (2 ^ Nat.log 2 X, size (2 ^ Nat.log 2 X)) else r)
  | 0, i, r, h => by
    obtain rfl : i = 64 := by omega
    rw [if_neg (by omega)]
    rfl
  | n + 1, i, r, h => by
    by_cases hi : 2 ^ i ≤ X
    · have hfound := hf.found _ (two_pow_mem_findset hi) Nat.one_le_two_pow
      rw [findlastPow_found hfound, findlastPow_eq hf hX n (i + 1) _ (by omega), if_pos hi]
      split_ifs with hi'
      · rfl
      · -- `2 ^ i ≤ X < 2 ^ (i + 1)`: the power found is the largest
        rw [Nat.log_eq_of_pow_le_of_lt_pow hi (not_le.mp hi')]
    · obtain ⟨c, hc⟩ := hf.above _ (not_le.mp hi)
      rw [findlastPow_missing hc, if_neg hi]

/-- One step of the binary search keeps `L` at `X` rounded down to twice the step: the object
probed is `X` rounded down to the step, found where it is at most `X`, missing where it is above. -/
theorem findlastBin_step (hf : HeadsFind heads size X) (k : ℕ) (hL : 0 < X - X % 2 ^ (k + 1)) :
    findlastBin heads (2 ^ k) (X - X % 2 ^ (k + 1), size (X - X % 2 ^ (k + 1))) =
      findlastBin heads (2 ^ k / 2) (X - X % 2 ^ k, size (X - X % 2 ^ k)) := by
  have hk : 2 ^ k ≠ 0 := Nat.two_pow_pos k |>.ne'
  have hlt : X % 2 ^ k < 2 ^ k := Nat.mod_lt _ (Nat.two_pow_pos k)
  have hle : X % 2 ^ (k + 1) ≤ X := Nat.mod_le _ _
  rcases mod_two_pow_succ_eq X k with hbit | hbit
  · -- bit `k` of `X` is clear: `L + 2 ^ k` is above `X`
    obtain ⟨c, hc⟩ := hf.above (X - X % 2 ^ (k + 1) + 2 ^ k) (by omega)
    rw [findlastBin_missing hk hc, hbit]
  · -- bit `k` is set: `L + 2 ^ k` is `X` rounded down to `2 ^ k`, above `2 ^ k`
    have heq : X - X % 2 ^ (k + 1) + 2 ^ k = X - X % 2 ^ k := by omega
    have hmem : X - X % 2 ^ k ∈ findset X := Or.inr (Or.inl ⟨k, by omega, rfl⟩)
    have hfound := hf.found _ hmem (by omega)
    rw [← heq] at hfound
    rw [findlastBin_found hk hfound, heq]

/-- The binary search from `X` rounded down to `2 ^ (k + 1)`, with step `2 ^ k`, ends at `X`. -/
theorem findlastBin_eq (hf : HeadsFind heads size X) :
    ∀ k, 0 < X - X % 2 ^ (k + 1) →
      findlastBin heads (2 ^ k) (X - X % 2 ^ (k + 1), size (X - X % 2 ^ (k + 1))) = .ok (X, size X)
  | 0, hL => by
    rw [findlastBin_step hf 0 hL, Nat.pow_zero, Nat.mod_one, Nat.sub_zero]
    exact findlastBin_zero _
  | k + 1, hL => by
    have hmono : X % 2 ^ (k + 1) ≤ X % 2 ^ (k + 1 + 1) := by
      rw [@Nat.mod_pow_succ X 2 (k + 1)]
      exact Nat.le_add_right _ _
    rw [findlastBin_step hf (k + 1) hL, Nat.pow_succ, Nat.mul_div_cancel _ Nat.two_pos]
    exact findlastBin_eq hf k (by omega)

/-- The DESIGN's theorem: lines 1-12 of Algorithm FindLast return the last object PUT, or 0 if
there is none. -/
theorem findlastSearch_eq (hf : HeadsFind heads size X) (hX : X < 2 ^ 64) :
    findlastSearch heads = .ok (X, if X = 0 then 0 else size X) := by
  rw [findlastSearch_of_pow (findlastPow_eq hf hX 64 0 (0, 0) rfl), Nat.pow_zero]
  by_cases hX0 : X = 0
  · subst hX0
    simp [findlastBin_zero]
  rw [if_pos (by omega), if_neg hX0]
  -- the largest power of two up to `X` is `X` rounded down to it
  set m := Nat.log 2 X with hm
  have hlo : 2 ^ m ≤ X := Nat.pow_log_le_self 2 hX0
  have hhi : X < 2 ^ (m + 1) := Nat.lt_pow_succ_log_self Nat.one_lt_two X
  rcases m with _ | k
  · obtain rfl : X = 1 := by simp at hhi; omega
    simp [findlastBin_zero]
  · have hround : X - X % 2 ^ (k + 1) = 2 ^ (k + 1) := by
      rw [Nat.mod_eq_sub_mod hlo, Nat.mod_eq_of_lt (by rw [Nat.pow_succ] at hhi ⊢; omega)]
      omega
    rw [Nat.pow_succ 2 k, Nat.mul_div_cancel _ Nat.two_pos, ← Nat.pow_succ, ← hround]
    exact findlastBin_eq hf k (by omega)

/-- The backward scan from an object `L` steps back over empty objects, each found, to the last
non-empty one `E`, or to object 1. -/
theorem findlastBack_eq {E : ℕ} (hE1 : 1 ≤ E) (hE : 0 < size E ∨ E = 1) (L : ℕ) (hEL : E ≤ L) :
    (∀ Y, E ≤ Y → Y < L → heads Y = some (200, size Y)) →
      (∀ Y, E < Y → Y ≤ L → size Y = 0) → findlastBack heads L (size L) = .ok (E, size E) := by
  induction L, hEL using Nat.le_induction with
  | base => exact fun _ _ => findlastBack_stop (hE.imp id (by omega))
  | succ L hEL ih =>
    intro hback hempty
    -- `L + 1` is empty and above `E ≥ 1`, so the scan steps back to `L`
    obtain ⟨L, rfl⟩ : ∃ L', L = L' + 1 := ⟨L - 1, by omega⟩
    rw [hempty (L + 2) (by omega) le_rfl, findlastBack_found (hback (L + 1) hEL (by omega))]
    exact ih (fun Y h₁ h₂ => hback Y h₁ (by omega)) (fun Y h₁ h₂ => hempty Y h₁ (by omega))

/-- `findlast` returns the last non-empty object `E` and its size, where the objects from `E` to
the last object PUT are found and those after `E` are empty. -/
theorem findlast_eq (hf : HeadsFind heads size X) (hX : X < 2 ^ 64) {E : ℕ} (hE1 : 1 ≤ E)
    (hEX : E ≤ X) (hE : 0 < size E ∨ E = 1)
    (hback : ∀ Y, E ≤ Y → Y < X → heads Y = some (200, size Y))
    (hempty : ∀ Y, E < Y → Y ≤ X → size Y = 0) : findlast heads = .ok (E, size E) := by
  rw [findlast_of_search (findlastSearch_eq hf hX), if_neg (by omega)]
  exact findlastBack_eq hE1 hE X hEX hback hempty

end Search

/-- Objects 1 and 2 hold two blocks of 4096 bytes each, and object 3 is the empty object a
previous start PUT. -/
def restartSize (Y : ℕ) : ℕ := if Y ≤ 2 then 8192 else 0

def restartHeads : Heads := fun Y => if Y ≤ 3 then some (200, restartSize Y) else some (404, 0)

theorem restartHeads_find : HeadsFind restartHeads restartSize 3 where
  found Y hY _ := by simp [restartHeads, le_of_mem_findset hY]
  above Y hY := ⟨0, by simp [restartHeads]; omega⟩

/-! ## FindLast after garbage collection -/

/-- In every reachable state of the bucket, lines 1-12 of FindLast find the last object PUT, where
HEAD finds each object PUT and never deleted and nothing above the last: since the B+Tree still
needs that object, garbage collection has deleted no object of its find set. -/
theorem reachable_findlastSearch {W : S3World} (hW : Reachable s3Init S3Step W) {heads : Heads}
    {size : ℕ → ℕ} {X : ℕ} (hX : X < 2 ^ 64) (hneed : W.need ≤ X)
    (hput : ∀ Y, 1 ≤ Y → Y ≤ X → (∀ D ∈ W.deleted, D.toNat ≠ Y) → heads Y = some (200, size Y))
    (hnone : ∀ Y, X < Y → ∃ c, heads Y = some (404, c)) :
    findlastSearch heads = .ok (X, if X = 0 then 0 else size X) := by
  refine findlastSearch_eq ⟨fun Y hY h₁ => hput Y h₁ (le_of_mem_findset hY) fun D hD hDY => ?_,
    hnone⟩ hX
  -- `Y` is in `FINDSET(X)`, part of the keep set of the least object needed
  exact (reachable_inv hW).keep D hD (hDY ▸ ⟨X, hneed, hY⟩)

/-- HEAD on the bucket of `markerWorld` after objects `1 .. 300` were PUT with one 4096-byte block
each: garbage collection has deleted 247 of them, and nothing above 300 was PUT. -/
def collectedHeads (Y : ℕ) : Option (ℤ × ℕ) :=
  if Y ≤ 300 ∧ ∀ D ∈ markerWorld.deleted, D.toNat ≠ Y then some (200, 4096) else some (404, 0)

/-- After the DELETEs below 257 of `markerWorld`, FindLast still finds object 300. -/
theorem markerWorld_findlastSearch :
    findlastSearch collectedHeads = .ok (300, if 300 = 0 then 0 else 4096) := by
  have hput : ∀ Y, 1 ≤ Y → Y ≤ 300 → (∀ D ∈ markerWorld.deleted, D.toNat ≠ Y) →
      collectedHeads Y = some (200, (fun _ => 4096 : ℕ → ℕ) Y) := fun Y _ hY hkept => by
    rw [collectedHeads, if_pos ⟨hY, hkept⟩]
  have hnone : ∀ Y, 300 < Y → ∃ c, collectedHeads Y = some (404, c) := fun Y hY =>
    ⟨0, by rw [collectedHeads, if_neg (by omega)]⟩
  exact reachable_findlastSearch reachable_markerWorld (by decide)
    (by rw [markerWorld_eq.2.2.2.2]; decide) hput hnone

/-! ## The start of lbs-s3 -/

/-- `BLKSPEROBJECT`: the blocks of an S3 object. -/
def blksPerObject : ℕ := 2 ^ 24

/-- `BLK2OBJECT(blk)`: the object holding block `blk`. -/
def blk2object (blk : ℕ) : ℕ := blk / blksPerObject + 1

/-- Why `s3state_init` fails, its allocations apart. -/
inductive S3stateInitError where
  | findlast (e : FindlastError)
  /-- "S3 object size is not a multiple of the block size!" -/
  | notMultiple
  /-- The PUT of the empty object failed. -/
  | putFailed
  deriving DecidableEq, Repr

/-- What `s3state_init` sets up: the last block written, the next block to write, and the object
it PUTs empty. -/
structure S3Start where
  lastblk : UInt64
  nextblk : UInt64
  emptyPut : Option ℕ
  deriving DecidableEq, Repr

/-- `s3state_init(Q_S3, bucket, blklen, D)`, from the replies to HEAD and whether the PUT of the
empty object succeeds. -/
def s3stateInit (heads : Heads) (blklen : ℕ) (putOk : Bool) :
    Except S3stateInitError S3Start := do
  let (L, olen) ← (findlast heads).mapError .findlast
  -- no objects stored: `lastblk` is `(uint64_t)(-1)`
  if L = 0 then return ⟨0 - 1, 0, none⟩
  if olen % blklen ≠ 0 then throw .notMultiple
  if !putOk then throw .putFailed
  return ⟨(UInt64.ofNat L - 1) * UInt64.ofNat blksPerObject + UInt64.ofNat (olen / blklen) - 1,
    (UInt64.ofNat L + 1) * UInt64.ofNat blksPerObject, some (L + 1)⟩

theorem s3stateInit_of_findlast {heads : Heads} {blklen L olen : ℕ}
    (h : findlast heads = .ok (L, olen)) (hL : 1 ≤ L) (hmul : olen % blklen = 0) :
    s3stateInit heads blklen true = .ok
      ⟨(UInt64.ofNat L - 1) * UInt64.ofNat blksPerObject + UInt64.ofNat (olen / blklen) - 1,
        (UInt64.ofNat L + 1) * UInt64.ofNat blksPerObject, some (L + 1)⟩ := by
  simp [s3stateInit, h, Except.mapError, bind, Except.bind, hmul, if_neg (show L ≠ 0 by omega)]
  rfl

/-- The next block is the first of object `L + 2`, where it is below `2 ^ 64`. -/
theorem nextblk_toNat {L : ℕ} (h : (L + 1) * blksPerObject < 2 ^ 64) :
    ((UInt64.ofNat L + 1) * UInt64.ofNat blksPerObject).toNat = (L + 1) * blksPerObject := by
  rw [show (UInt64.ofNat L + 1) = UInt64.ofNat (L + 1) from (UInt64.ofNat_add L 1).symm,
    ← UInt64.ofNat_mul, UInt64.toNat_ofNat', Nat.mod_eq_of_lt h]

/-- One past the last block is the number of blocks of the objects up to `L`. -/
theorem lastblk_succ {L q : ℕ} (hL : 1 ≤ L) :
    (UInt64.ofNat L - 1) * UInt64.ofNat blksPerObject + UInt64.ofNat q - 1 + 1 =
      UInt64.ofNat ((L - 1) * blksPerObject + q) := by
  rw [UInt64.ofNat_add, UInt64.ofNat_mul, UInt64.ofNat_sub hL]
  simp

theorem blk2object_mul (n : ℕ) : blk2object (n * blksPerObject) = n + 1 := by
  simp [blk2object, blksPerObject]

/-- Where lbs-s3 resumes writing.  With `X` the last object PUT and `E` the last non-empty one,
`s3state_init` PUTs object `E + 1` empty, reports as its last block the last block of the objects
up to `E`, and starts writing at the first block of object `E + 2`.  The DESIGN's gap of one object
after the last object stored, which keeps this process from writing to an object a previous one
may still have a PUT in progress for, is there exactly when that object is not empty. -/
theorem s3stateInit_resumes {heads : Heads} {size : ℕ → ℕ} {X E blklen : ℕ}
    (hf : HeadsFind heads size X) (hE1 : 1 ≤ E) (hEX : E ≤ X) (hE : 0 < size E ∨ E = 1)
    (hback : ∀ Y, E ≤ Y → Y < X → heads Y = some (200, size Y))
    (hempty : ∀ Y, E < Y → Y ≤ X → size Y = 0) (hmul : size E % blklen = 0)
    (hroom : (X + 1) * blksPerObject < 2 ^ 64) :
    ∃ S, s3stateInit heads blklen true = .ok S ∧ S.emptyPut = some (E + 1) ∧
      S.lastblk + 1 = UInt64.ofNat ((E - 1) * blksPerObject + size E / blklen) ∧
      S.nextblk.toNat = (E + 1) * blksPerObject ∧
      (X + 2 ≤ blk2object S.nextblk.toNat ↔ E = X) := by
  have hX : X < 2 ^ 64 := by
    simp only [blksPerObject] at hroom
    omega
  have hnext : (E + 1) * blksPerObject < 2 ^ 64 :=
    lt_of_le_of_lt (Nat.mul_le_mul_right _ (by omega)) hroom
  refine ⟨_, s3stateInit_of_findlast (findlast_eq hf hX hE1 hEX hE hback hempty) hE1 hmul, rfl,
    lastblk_succ hE1, nextblk_toNat hnext, ?_⟩
  rw [nextblk_toNat hnext, blk2object_mul]
  omega

/-- After a start that wrote nothing, lbs-s3 resumes at object 4, right after the empty object 3. -/
theorem restart_resumes_at_four :
    ∃ S, s3stateInit restartHeads 4096 true = .ok S ∧ S.emptyPut = some (2 + 1) ∧
      S.lastblk + 1 = UInt64.ofNat ((2 - 1) * blksPerObject + restartSize 2 / 4096) ∧
      S.nextblk.toNat = (2 + 1) * blksPerObject ∧ (3 + 2 ≤ blk2object S.nextblk.toNat ↔ 2 = 3) :=
  s3stateInit_resumes restartHeads_find (by decide) (by decide) (.inl (by decide))
    (fun Y _ hY => by simp [restartHeads]; omega) (fun Y hY _ => by simp [restartSize]; omega)
    (by decide) (by decide)

end Kivaloo.LbsS3
