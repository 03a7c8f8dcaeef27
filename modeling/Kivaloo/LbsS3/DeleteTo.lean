import Kivaloo.Lib.Word

/-!
# Garbage collection of S3 objects (lbs-s3/deleteto.c)

The B+Tree tells lbs-s3 by FREE requests which blocks it no longer needs; `s3state_gc` turns the
block number into an object number `N` for `deleteto_deleteto`.  The deleter runs the algorithm
DeleteTo of lbs-s3/DESIGN in rounds.  A round (`poke`) starts only when no S3 operation is in
progress.  It first stores `M` to the object DeletedMarker when `M` is a multiple of 256 not
stored yet; then, if `M < N`, it issues for `M` the DELETEs of the bit loop and an empty PUT of
`M` when `M` is a power of two or a multiple of 256, and moves on to `M + 1`.  When that step
issued nothing, the round goes on with the next `M`.  Each completed operation calls
`callback_done`, and the last one of a round starts the next round.  On start, `deleteto_init`
reads `M` back from DeletedMarker, or starts from `1` when there is none.

Objects are named by their numbers (`objmap` is left out).  The fields are the `uint64_t`s of
`struct deleteto`: `M + 1` and the doubling of `BIT` wrap around as the C arithmetic does.
-/

namespace Kivaloo.LbsS3

open Kivaloo.Lib

/-- The state of `struct deleteto`; the request queue, the bucket, and `done`, which is used
only while DeletedMarker is read, are left out. -/
structure DeleteTo where
  /-- Delete objects below this number. -/
  N : UInt64
  /-- We've deleted everything below this number. -/
  M : UInt64
  /-- S3 operations in progress. -/
  npending : ℕ
  /-- `npending == 0`. -/
  idle : Bool
  /-- Has `M` changed since we last stored it? -/
  updateDeletedTo : Bool
  /-- Stop poking ourselves. -/
  shuttingdown : Bool
deriving DecidableEq, Repr

/-- An S3 request of the deleter. -/
inductive S3Op where
  /-- DELETE of object `X`. -/
  | delete (X : UInt64)
  /-- PUT of an empty object `X`. -/
  | put (X : UInt64)
  /-- PUT of DeletedMarker holding `M`. -/
  | putMarker (M : UInt64)
deriving DecidableEq, Repr

/-! ## One step of DeleteTo -/

/-- The loop of `poke` over `BIT = 1, 2, 4, ...` until `BIT` overflows to zero, with at most `n`
rounds left: the object `M - M % BIT` for each bit set in `M` and clear in `M + 1`, unless that
object is `BIT` itself. -/
def deleteLoop (M : UInt64) : ℕ → UInt64 → List UInt64
  | 0, _ => []
  | n + 1, BIT =>
    if BIT = 0 then []
    else
      let rest := deleteLoop M n (BIT + BIT)
      if M &&& BIT = BIT ∧ (M + 1) &&& BIT = 0 then
        let X := M - M % BIT
        if X = BIT then rest else X :: rest
      else rest

/-- The objects deleted for `M`: the loop from `BIT = 1`, which overflows after 64 doublings. -/
def deletes (M : UInt64) : List UInt64 := deleteLoop M 64 1

/-- The test for the empty PUT of `M`: a power of two, or a multiple of 256. -/
def emptyPut (M : UInt64) : Bool := M &&& (M - 1) == 0 || M % 256 == 0

/-- The start of `poke`: store `M` to DeletedMarker if it is a multiple of 256 and has changed
since it was last stored. -/
def storeMarker (D : DeleteTo) : DeleteTo × List S3Op :=
  if D.M % 256 = 0 ∧ D.updateDeletedTo = true then
    ({ D with idle := false, npending := D.npending + 1, updateDeletedTo := false },
      [.putMarker D.M])
  else (D, [])

/-- One step of DeleteTo for `M`: the DELETEs and the empty PUT for `M`, then `M + 1`. -/
def deleteStep (D : DeleteTo) : DeleteTo × List S3Op :=
  let ops := (deletes D.M).map .delete ++ if emptyPut D.M then [.put D.M] else []
  ({ D with
      idle := D.idle && ops.isEmpty
      npending := D.npending + ops.length
      M := D.M + 1
      updateDeletedTo := true }, ops)

@[simp] theorem storeMarker_N (D : DeleteTo) : (storeMarker D).1.N = D.N := by
  unfold storeMarker; split_ifs <;> rfl

@[simp] theorem storeMarker_M (D : DeleteTo) : (storeMarker D).1.M = D.M := by
  unfold storeMarker; split_ifs <;> rfl

@[simp] theorem deleteStep_N (D : DeleteTo) : (deleteStep D).1.N = D.N := rfl

@[simp] theorem deleteStep_M (D : DeleteTo) : (deleteStep D).1.M = D.M + 1 := rfl

/-! ## Rounds and events -/

/-- `poke(D)`: nothing while shutting down or while operations are in progress; otherwise a
round, which goes on in place with the next `M` while its steps issue nothing. -/
def poke (D : DeleteTo) : DeleteTo × List S3Op :=
  if D.shuttingdown = true ∨ D.idle = false then (D, [])
  else
    let s := storeMarker D
    if s.1.N ≤ s.1.M then s
    else
      let t := deleteStep s.1
      if t.1.idle = true then
        let r := poke t.1
        (r.1, s.2 ++ t.2 ++ r.2)
      else (t.1, s.2 ++ t.2)
termination_by D.N.toNat - D.M.toNat
decreasing_by
  -- a step is taken only below `N`, where `M + 1` does not wrap around
  rename_i hlt _
  have hMN : D.M < D.N := by simpa [s] using hlt
  have h1 := toNat_add_one_of_lt hMN
  have h2 := UInt64.lt_iff_toNat_lt.mp hMN
  simp only [deleteStep_N, deleteStep_M, storeMarker_N, storeMarker_M]
  omega

/-- `callback_done` after an operation succeeded; `none` when one of its assertions
(`idle == 0`, `npending > 0`) fails.  The last operation of a round starts the next round. -/
def callbackDone (D : DeleteTo) : Option (DeleteTo × List S3Op) :=
  if D.idle = false ∧ 0 < D.npending then
    let D' := { D with npending := D.npending - 1 }
    some (if D'.npending = 0 then poke { D' with idle := true } else (D', []))
  else none

/-- `deleteto_deleteto(D, N)`: raise `N`, then poke. -/
def deletetoDeleteto (D : DeleteTo) (N : UInt64) : DeleteTo × List S3Op :=
  poke (if D.N < N then { D with N := N } else D)

/-- `deleteto_init`: `M` from DeletedMarker, or `1` when HEAD finds no DeletedMarker. -/
def deletetoInit (marker : Option UInt64) : DeleteTo where
  N := 0
  M := marker.getD 1
  npending := 0
  idle := true
  updateDeletedTo := false
  shuttingdown := false

/-- `deleteto_stop`: stop poking; the process then waits until the operations in progress end. -/
def deletetoStop (D : DeleteTo) : DeleteTo := { D with shuttingdown := true }

end Kivaloo.LbsS3
