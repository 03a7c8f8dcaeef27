import Kivaloo.LbsDynamodb.Metadata

/-!
# Deleting blocks in lbs-dynamodb (lbs-dynamodb/deleteto.c)

FREE requests raise `N`; the deleter issues the DELETE of each block `M = M, M+1, ...` below
`N`, at most MAXINPROGRESS at once and at most MAXUNRECORDED past the `deletedto` value last
stored, keeping the blocks in progress in issue order.  Each `poke` first tells the metadata code
how far everything is deleted: the first block still in progress, or `M` when none is.  The
deleter is poked after every FREE, every completed DELETE and every completed metadata store.

A block's DELETE is the request for `objmap` of its number; blocks are named by their numbers.
-/

namespace Kivaloo.LbsDynamodb

/-- Maximum number of deletes in progress at once. -/
def MAXINPROGRESS : ℕ := 64

/-- Maximum number of deletes to replay if we crash. -/
def MAXUNRECORDED : UInt64 := 8000

/-- `struct deleteto`; the request queue and the metadata handler are passed separately. -/
structure Deleteto where
  /-- Delete objects below this number. -/
  N : UInt64
  /-- We've issued deletes up to this number. -/
  M : UInt64
  /-- Value when we last flushed metadata. -/
  flushed : UInt64
  /-- DELETE operations in progress. -/
  npending : ℕ
  /-- Stop issuing DELETEs: `0`, `1`, or `2` once a flush was asked for. -/
  shuttingdown : ℕ
  /-- Everything is done. -/
  shutdown : Bool
  /-- The block numbers of the deletes in progress, from `ip_head` to `ip_tail`. -/
  ip : List UInt64
deriving DecidableEq, Repr

variable {κ : Type}

/-- The value `poke` tells the metadata code: the first delete in progress, or `M`. -/
def Deleteto.deletedto (D : Deleteto) : UInt64 := D.ip.headD D.M

/-- The `while` loop of `poke`, `read` being `metadata_deletedto_read`: issue the DELETE of `M`
while `M < N`, fewer than MAXINPROGRESS are in progress and `M` is below `read +
MAXUNRECORDED` (a `uint64_t` sum).  Returns the blocks whose DELETEs were issued.  Each round
raises `npending`, so MAXINPROGRESS rounds of fuel are never used up (`issueLoop_fuel`). -/
def issueLoop (read : UInt64) : ℕ → Deleteto → Deleteto × List UInt64
  | 0, D => (D, [])
  | n + 1, D =>
    if D.M < D.N ∧ D.npending < MAXINPROGRESS ∧ D.M < read + MAXUNRECORDED then
      let r := issueLoop read n
        { D with ip := D.ip ++ [D.M], npending := D.npending + 1, M := D.M + 1 }
      (r.1, D.M :: r.2)
    else (D, [])

/-- More fuel than MAXINPROGRESS less the deletes in progress changes nothing: the loop stops when
MAXINPROGRESS deletes are in progress. -/
theorem issueLoop_fuel (read : UInt64) :
    ∀ (n : ℕ) (D : Deleteto), MAXINPROGRESS ≤ D.npending + n →
      issueLoop read (n + 1) D = issueLoop read n D := by
  intro n
  induction n with
  | zero =>
    intro D hD
    have hguard : ¬(D.M < D.N ∧ D.npending < MAXINPROGRESS ∧ D.M < read + MAXUNRECORDED) := by
      omega
    simp only [issueLoop, if_neg hguard]
  | succ n ih =>
    intro D hD
    unfold issueLoop
    split_ifs with hguard
    · rw [ih _ (by dsimp only; omega)]
    · rfl

/-- `poke(D)`: record how far everything is deleted; while shutting down, finish or ask for a
flush; otherwise issue DELETEs and ask for a flush when the stored `deletedto` is far behind.
Returns the deleter, the metadata, the blocks whose DELETEs were issued, and the ICAS of a
write that started. -/
def poke (D : Deleteto) (MD : Metadata κ) : Deleteto × Metadata κ × List UInt64 × Option Icas :=
  let deletedto := D.deletedto
  let MD := metadataDeletedtoWrite MD deletedto
  if D.shuttingdown ≠ 0 then
    if D.npending ≠ 0 then (D, MD, [], none)
    else if metadataDeletedtoRead MD = deletedto then ({ D with shutdown := true }, MD, [], none)
    else if D.shuttingdown = 1 then
      let w := metadataFlush MD
      ({ D with shuttingdown := 2 }, w.1, [], w.2)
    else (D, MD, [], none)
  else
    let l := issueLoop (metadataDeletedtoRead MD) MAXINPROGRESS D
    if deletedto - metadataDeletedtoRead MD > MAXUNRECORDED / 2 ∧
        deletedto - l.1.flushed > MAXUNRECORDED / 4 then
      let w := metadataFlush MD
      ({ l.1 with flushed := deletedto }, w.1, l.2, w.2)
    else (l.1, MD, l.2, none)

/-- `callback_done` after the DELETE of block `X` succeeded; `none` when the assertion
`npending > 0` fails. -/
def callbackDone (D : Deleteto) (MD : Metadata κ) (X : UInt64) :
    Option (Deleteto × Metadata κ × List UInt64 × Option Icas) :=
  if 0 < D.npending then
    some (poke { D with ip := D.ip.erase X, npending := D.npending - 1 } MD)
  else none

/-- `deleteto_deleteto(D, N)`: raise `N`, then poke. -/
def deletetoDeleteto (D : Deleteto) (MD : Metadata κ) (N : UInt64) :
    Deleteto × Metadata κ × List UInt64 × Option Icas :=
  poke (if D.N < N then { D with N } else D) MD

/-- `deleteto_init(Q, M)`: start from the stored `deletedto` and register `poke` for every
completed store. -/
def deletetoInit (MD : Metadata κ) : Deleteto × Metadata κ :=
  (⟨0, metadataDeletedtoRead MD, 0, 0, 0, false, []⟩, metadataDeletedtoRegister MD true)

/-- `deleteto_stop(D)` up to its wait: stop issuing DELETEs and poke. -/
def deletetoStop (D : Deleteto) (MD : Metadata κ) : Deleteto × Metadata κ × List UInt64 × Option Icas :=
  poke { D with shuttingdown := 1 } MD

end Kivaloo.LbsDynamodb
