import Kivaloo.LbsDynamodb.Metadata

/-!
# Appending blocks in lbs-dynamodb (lbs-dynamodb/state.c)

An APPEND of `nblks` blocks at `nextblk` goes through three phases, each started by the
callback of the one before: `state_append` reserves the block IDs by recording `nextblk +
nblks` in the metadata; once that value is stored, `callback_append_put_nextblk` PUTs every
block; once the last PUT completes, `callback_append_put_blks` records `lastblk = nextblk - 1`;
and once that is stored, `callback_append_put_lastblk` answers the APPEND.  The dispatcher
performs an APPEND only at `nextblk` and only when no other APPEND is in progress.

A block's PUT is the request for `objmap` of its number; blocks are named by their numbers, and
the data and the block size are left out.
-/

namespace Kivaloo.LbsDynamodb

/-- The callbacks state.c asks the metadata code to perform once a value is stored. -/
inductive StateCallback
  /-- `callback_append_put_nextblk`. -/
  | putNextblk
  /-- `callback_append_put_lastblk`. -/
  | putLastblk
deriving DecidableEq, Repr

/-- `struct state`; the block size, the request queue and the metadata handler are left out. -/
structure State where
  /-- Last block # written. -/
  lastblk : UInt64
  /-- Next block # to write. -/
  nextblk : UInt64
  /-- Callbacks not performed yet. -/
  npending : ℕ
deriving DecidableEq, Repr

/-- An APPEND request as `proto_lbs_request_read` parses it; the block size and the data are
left out. -/
structure AppendRequest where
  blkno : UInt64
  nblks : UInt32
deriving DecidableEq, Repr

/-- `struct append_cookie`, with the request's `nblks`; the request and the dispatcher's callback
are left out. -/
structure AppendCookie where
  nblks : UInt32
  nblksLeft : UInt64
  nextblkOld : UInt64
deriving DecidableEq, Repr

variable {κ : Type}

/-- `state_init(Q, itemsz, tableid, M)` once the table ID is checked: the stored values. -/
def stateInit (MD : Metadata κ) : State :=
  ⟨metadataLastblkRead MD, metadataNextblkRead MD, 0⟩

/-- `state_append(S, R, callback, cookie)`: reserve the blocks by writing the new `nextblk`, with
`callback_append_put_nextblk` to perform once it is stored; `none` when the assertion of
`metadata_nextblk_write` fails. -/
def stateAppend (S : State) (MD : Metadata StateCallback) (R : AppendRequest) :
    Option (State × AppendCookie × Metadata StateCallback × Option Icas) :=
  let C : AppendCookie := ⟨R.nblks, R.nblks.toUInt64, S.nextblk⟩
  let S := { S with nextblk := S.nextblk + R.nblks.toUInt64 }
  (metadataNextblkWrite MD S.nextblk .putNextblk).map fun w =>
    ({ S with npending := S.npending + 1 }, C, w.1, w.2)

/-- `callback_append_put_nextblk(C)`: the blocks it PUTs, `nextblk_old + i` for `i < nblks`. -/
def callbackAppendPutNextblk (C : AppendCookie) : List UInt64 :=
  (List.range C.nblks.toNat).map fun i => C.nextblkOld + UInt64.ofNat i

/-- `callback_append_put_blks(C, 0)`: one block is stored; after the last one, record `lastblk =
nextblk - 1` with `callback_append_put_lastblk` to perform once it is stored.  `none` when an
assertion fails. -/
def callbackAppendPutBlks (S : State) (C : AppendCookie) (MD : Metadata StateCallback) :
    Option (State × AppendCookie × Metadata StateCallback × Option Icas) :=
  if C.nblksLeft = 0 then none
  else
    let C := { C with nblksLeft := C.nblksLeft - 1 }
    if C.nblksLeft = 0 then
      let S := { S with lastblk := S.nextblk - 1 }
      (metadataLastblkWrite MD S.lastblk .putLastblk).map fun w => (S, C, w.1, w.2)
    else some (S, C, MD, none)

/-- `callback_append_put_lastblk(C)`: the APPEND is answered with `nextblk`. -/
def callbackAppendPutLastblk (S : State) : State × UInt64 :=
  ({ S with npending := S.npending - 1 }, S.nextblk)

/-- The test of `gotrequest` for an APPEND: it is performed iff it starts at `nextblk` and no
APPEND is in progress (`appendip`); otherwise it is answered with a failure. -/
def gotrequestAppendOk (S : State) (appendip : Bool) (R : AppendRequest) : Bool :=
  !(R.blkno != S.nextblk || appendip)

theorem gotrequestAppendOk_iff {S : State} {appendip : Bool} {R : AppendRequest} :
    gotrequestAppendOk S appendip R = true ↔ R.blkno = S.nextblk ∧ appendip = false := by
  simp [gotrequestAppendOk]

@[simp] theorem stateInit_nextblk (MD : Metadata κ) :
    (stateInit MD).nextblk = MD.stored.nextblk := rfl

@[simp] theorem stateInit_lastblk (MD : Metadata κ) :
    (stateInit MD).lastblk = MD.stored.lastblk := rfl

/-- `state_append` raises `nextblk` by `nblks`, remembers the old value in the cookie, and
writes the new one. -/
theorem stateAppend_eq_some {S : State} {MD : Metadata StateCallback} {R : AppendRequest}
    {S' : State} {C : AppendCookie} {MD' : Metadata StateCallback} {r : Option Icas}
    (h : stateAppend S MD R = some (S', C, MD', r)) :
    S' = ⟨S.lastblk, S.nextblk + R.nblks.toUInt64, S.npending + 1⟩ ∧
      C = ⟨R.nblks, R.nblks.toUInt64, S.nextblk⟩ ∧
      metadataNextblkWrite MD (S.nextblk + R.nblks.toUInt64) .putNextblk = some (MD', r) := by
  unfold stateAppend at h
  obtain ⟨w, hw, hmk⟩ := Option.map_eq_some_iff.mp h
  simp only [Prod.mk.injEq] at hmk
  obtain ⟨rfl, rfl, rfl, rfl⟩ := hmk
  exact ⟨rfl, rfl, hw⟩

/-- `callback_append_put_blks` counts one block down; after the last one it sets `lastblk` and
writes it, and otherwise changes nothing else. -/
theorem callbackAppendPutBlks_eq_some {S : State} {C : AppendCookie}
    {MD : Metadata StateCallback} {S' : State} {C' : AppendCookie} {MD' : Metadata StateCallback}
    {r : Option Icas} (h : callbackAppendPutBlks S C MD = some (S', C', MD', r)) :
    C.nblksLeft ≠ 0 ∧ C' = { C with nblksLeft := C.nblksLeft - 1 } ∧
      (C.nblksLeft - 1 = 0 ∧ S' = { S with lastblk := S.nextblk - 1 } ∧
          metadataLastblkWrite MD (S.nextblk - 1) .putLastblk = some (MD', r) ∨
        C.nblksLeft - 1 ≠ 0 ∧ S' = S ∧ MD' = MD ∧ r = none) := by
  unfold callbackAppendPutBlks at h
  dsimp only at h
  split_ifs at h with hleft hlast
  · obtain ⟨w, hw, hmk⟩ := Option.map_eq_some_iff.mp h
    simp only [Prod.mk.injEq] at hmk
    obtain ⟨rfl, rfl, rfl, rfl⟩ := hmk
    exact ⟨hleft, rfl, .inl ⟨hlast, rfl, hw⟩⟩
  · simp only [Option.some.injEq, Prod.mk.injEq] at h
    obtain ⟨rfl, rfl, rfl, rfl⟩ := h
    exact ⟨hleft, rfl, .inr ⟨hlast, rfl, rfl, rfl⟩⟩

@[simp] theorem length_callbackAppendPutNextblk (C : AppendCookie) :
    (callbackAppendPutNextblk C).length = C.nblks.toNat := by
  simp [callbackAppendPutNextblk]

/-- The blocks PUT are `nextblk_old + i` for `i < nblks`, which do not wrap while the reserved
range fits below `2^64`. -/
theorem toNat_of_mem_callbackAppendPutNextblk {C : AppendCookie}
    (hfit : C.nextblkOld.toNat + C.nblks.toNat < 2 ^ 64) {b : UInt64}
    (hb : b ∈ callbackAppendPutNextblk C) :
    C.nextblkOld.toNat ≤ b.toNat ∧ b.toNat < C.nextblkOld.toNat + C.nblks.toNat := by
  obtain ⟨i, hi, rfl⟩ := List.mem_map.mp hb
  have hi : i < C.nblks.toNat := List.mem_range.mp hi
  have hsum : (C.nextblkOld + UInt64.ofNat i).toNat = C.nextblkOld.toNat + i := by
    rw [UInt64.toNat_add, UInt64.toNat_ofNat']
    omega
  omega

end Kivaloo.LbsDynamodb
