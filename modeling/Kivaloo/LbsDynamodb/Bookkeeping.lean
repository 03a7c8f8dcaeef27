import Kivaloo.Lib.Transition
import Kivaloo.LbsDynamodb.DeleteToSpec

/-!
# Deletion bookkeeping of lbs-dynamodb across crashes

The system is the running lbs-dynamodb process (its deleter and its metadata), the metadata item
of the metadata table, and the requests in flight to the DynamoDB-KV daemons.  FREE requests
reach `deleteto_deleteto`; DELETEs complete in any order, each calling `callback_done`; the
ICAS of a metadata write is performed by the table, perhaps more than once before its answer,
and its success calls `callback_writemetadata`, which pokes the deleter; state.c writes new
`nextblk` and `lastblk` values at any time.  The process may die at any point, its requests
still in flight, and a new process claims the item and starts the deleter from the stored
`deletedto`.

In every reachable state (`reachable_deletedto`): the values the running process passed to
`metadata_deletedto_write`, the value it is storing and the value it last stored are at most
every block of a DELETE in flight, and every block below them, like every block below the
`deletedto` in the table, has had its DELETE completed; the running deleter issued DELETEs only
below its `N`, has at most MAXINPROGRESS in flight and `M` at most MAXUNRECORDED past the stored
value; and the stored value is at most the value `poke` reports and the one being stored, so
`deletedto - metadata_deletedto_read` does not wrap.
-/

namespace Kivaloo.LbsDynamodb

open Kivaloo.Lib

/-- The metadata lbs-dynamodb-init stores: nothing written, nothing deleted, `lastblk = -1`,
and a process ID of zeros. -/
def createmetadata : Item := ⟨0, 0, 0, 0 - 1, 0⟩

/-- lbs-dynamodb as far as deleting goes.  state.c's callbacks are `()`: performing them
touches neither the deleter nor the metadata. -/
structure DWorld where
  /-- The deleter and the metadata of the running process. -/
  proc : Option (Deleteto × Metadata Unit)
  /-- The metadata item of the metadata table. -/
  item : Item
  /-- The blocks of the running process's DELETEs in flight. -/
  dels : List UInt64
  /-- The running process's ICAS requests in flight. -/
  icas : List Icas
  /-- DELETEs that dead processes left in flight. -/
  orphanDels : List UInt64
  /-- ICAS requests that dead processes left in flight. -/
  orphanIcas : List Icas
  /-- Every block a DELETE completed for. -/
  completed : List UInt64
  /-- The blocks the running process issued DELETEs for. -/
  issued : List UInt64
  /-- The values the running process passed to `metadata_deletedto_write`. -/
  passed : List UInt64

namespace DWorld

/-- The running process goes on as `p` says: its deleter and metadata, the DELETEs and the ICAS
it issued. -/
def issue (W : DWorld) (p : Deleteto × Metadata Unit × List UInt64 × Option Icas) : DWorld :=
  { W with
    proc := some (p.1, p.2.1)
    dels := W.dels ++ p.2.2.1
    issued := W.issued ++ p.2.2.1
    icas := W.icas ++ p.2.2.2.toList }

/-- The running process goes on after a `poke`, which passed its metadata's latest `deletedto`. -/
def poked (W : DWorld) (p : Deleteto × Metadata Unit × List UInt64 × Option Icas) : DWorld :=
  { W.issue p with passed := W.passed ++ [p.2.1.latest.deletedto] }

section Issue

variable (W : DWorld) (p : Deleteto × Metadata Unit × List UInt64 × Option Icas)

@[simp] theorem issue_proc : (W.issue p).proc = some (p.1, p.2.1) := rfl
@[simp] theorem issue_item : (W.issue p).item = W.item := rfl
@[simp] theorem issue_dels : (W.issue p).dels = W.dels ++ p.2.2.1 := rfl
@[simp] theorem issue_icas : (W.issue p).icas = W.icas ++ p.2.2.2.toList := rfl
@[simp] theorem issue_orphanIcas : (W.issue p).orphanIcas = W.orphanIcas := rfl
@[simp] theorem issue_completed : (W.issue p).completed = W.completed := rfl
@[simp] theorem issue_issued : (W.issue p).issued = W.issued ++ p.2.2.1 := rfl
@[simp] theorem issue_passed : (W.issue p).passed = W.passed := rfl

@[simp] theorem poked_proc : (W.poked p).proc = some (p.1, p.2.1) := rfl
@[simp] theorem poked_item : (W.poked p).item = W.item := rfl
@[simp] theorem poked_dels : (W.poked p).dels = W.dels ++ p.2.2.1 := rfl
@[simp] theorem poked_icas : (W.poked p).icas = W.icas ++ p.2.2.2.toList := rfl
@[simp] theorem poked_orphanIcas : (W.poked p).orphanIcas = W.orphanIcas := rfl
@[simp] theorem poked_completed : (W.poked p).completed = W.completed := rfl
@[simp] theorem poked_issued : (W.poked p).issued = W.issued ++ p.2.2.1 := rfl
@[simp] theorem poked_passed :
    (W.poked p).passed = W.passed ++ [p.2.1.latest.deletedto] := rfl

end Issue

/-- The end of `callback_writemetadata`: another write if one was asked for. -/
def writeAgain (W : DWorld) : DWorld :=
  match W.proc with
  | some (D, MD) => W.issue (D, (writeIfWanted MD).1, [], (writeIfWanted MD).2)
  | none => W

/-- `callback_writemetadata` after the running process's ICAS succeeded: the values are stored,
state.c's callback does nothing here, the registered deleter is poked, and another write starts
if one was asked for. -/
def writeDone (W : DWorld) (D : Deleteto) (MD : Metadata Unit) : DWorld :=
  let MD₁ := callbackWritemetadata MD
  (if MD₁.callbackDeletedto then W.poked (poke D MD₁) else W.issue (D, MD₁, [], none)).writeAgain

end DWorld

/-- The steps of the system. -/
inductive DStep : DWorld → DWorld → Prop
  /-- A FREE request reaches `deleteto_deleteto`. -/
  | deleteto {W : DWorld} {D : Deleteto} {MD : Metadata Unit} {N : UInt64} :
      W.proc = some (D, MD) → DStep W (W.poked (deletetoDeleteto D MD N))
  /-- A DELETE of the running process succeeds and `callback_done` runs. -/
  | deleteDone {W : DWorld} {D : Deleteto} {MD : Metadata Unit} {X : UInt64}
      {p : Deleteto × Metadata Unit × List UInt64 × Option Icas} :
      W.proc = some (D, MD) → X ∈ W.dels → callbackDone D MD X = some p →
      DStep W ({ W with dels := W.dels.erase X, completed := W.completed ++ [X] }.poked p)
  /-- The table answers an ICAS of the running process with success. -/
  | writeDone {W : DWorld} {D : Deleteto} {MD : Metadata Unit} {r : Icas} {I : Item} :
      W.proc = some (D, MD) → r ∈ W.icas → r.perform W.item = some I →
      DStep W ({ W with item := I, icas := W.icas.erase r }.writeDone D MD)
  /-- The table performs an ICAS in flight without answering (yet). -/
  | perform {W : DWorld} {r : Icas} {I : Item} :
      r ∈ W.icas ++ W.orphanIcas → r.perform W.item = some I → DStep W { W with item := I }
  /-- state.c calls `metadata_nextblk_write`. -/
  | nextblkWrite {W : DWorld} {D : Deleteto} {MD : Metadata Unit} {v : UInt64}
      {p : Metadata Unit × Option Icas} :
      W.proc = some (D, MD) → metadataNextblkWrite MD v () = some p →
      DStep W (W.issue (D, p.1, [], p.2))
  /-- state.c calls `metadata_lastblk_write`. -/
  | lastblkWrite {W : DWorld} {D : Deleteto} {MD : Metadata Unit} {v : UInt64}
      {p : Metadata Unit × Option Icas} :
      W.proc = some (D, MD) → metadataLastblkWrite MD v () = some p →
      DStep W (W.issue (D, p.1, [], p.2))
  /-- `deleteto_stop`. -/
  | stop {W : DWorld} {D : Deleteto} {MD : Metadata Unit} :
      W.proc = some (D, MD) → DStep W (W.poked (deletetoStop D MD))
  /-- The process dies (a failed request, a lost ICAS, or a crash), its requests in flight. -/
  | crash {W : DWorld} :
      DStep W { W with
        proc := none, dels := [], icas := [], orphanDels := W.orphanDels ++ W.dels,
        orphanIcas := W.orphanIcas ++ W.icas }
  /-- A DELETE of a dead process completes. -/
  | orphanDone {W : DWorld} {X : UInt64} :
      X ∈ W.orphanDels →
      DStep W { W with orphanDels := W.orphanDels.erase X, completed := W.completed ++ [X] }
  /-- A new process claims the item under the process ID `pid` (`metadata_init`) and starts the
  deleter (`deleteto_init`). -/
  | start {W : DWorld} {pid : ℕ} :
      W.proc = none →
      DStep W { W with
        item := (claimIcas W.item pid).new
        proc := some (deletetoInit (metadataInit (claimIcas W.item pid).new pid))
        issued := []
        passed := [] }

/-- A table lbs-dynamodb-init created, before any process ran. -/
def dInit (W : DWorld) : Prop :=
  W.proc = none ∧ W.item = createmetadata ∧ W.dels = [] ∧ W.icas = [] ∧ W.orphanDels = [] ∧
    W.orphanIcas = [] ∧ W.completed = [] ∧ W.issued = [] ∧ W.passed = []

/-! ## The metadata's part of the invariant -/

/-- The stored, the storing and the latest `deletedto` increase up to `hi`, and the ICAS in
flight is that of the write in progress. -/
structure MetaInv {κ : Type} (MD : Metadata κ) (icas : List Icas) (hi : UInt64) : Prop where
  stored_le : MD.stored.deletedto ≤ MD.storing.deletedto
  storing_le : MD.storing.deletedto ≤ MD.latest.deletedto
  latest_le : MD.latest.deletedto ≤ hi
  icas : icas = if MD.writeInprogress then
    [⟨MD.stored.encode MD.processId, MD.storing.encode MD.processId⟩] else []

namespace MetaInv

variable {κ : Type} {MD : Metadata κ} {icas : List Icas} {hi : UInt64}

theorem storing_le_hi (h : MetaInv MD icas hi) : MD.storing.deletedto ≤ hi :=
  UInt64.le_trans h.storing_le h.latest_le

/-- What an ICAS in flight stores is at most `hi`. -/
theorem new_le (h : MetaInv MD icas hi) {r : Icas} (hr : r ∈ icas) : r.new.deletedto ≤ hi := by
  rw [h.icas] at hr
  split_ifs at hr
  · rw [List.mem_singleton] at hr
    subst hr
    exact h.storing_le_hi
  · simp at hr

theorem mono (h : MetaInv MD icas hi) {hi' : UInt64} (hhi : hi ≤ hi') : MetaInv MD icas hi' :=
  { h with latest_le := UInt64.le_trans h.latest_le hhi }

/-- Recording `hi` as the latest value keeps the invariant. -/
theorem deletedtoWrite (h : MetaInv MD icas hi) : MetaInv (metadataDeletedtoWrite MD hi) icas hi :=
  ⟨h.stored_le, h.storing_le_hi, UInt64.le_refl _, h.icas⟩

/-- A write keeps the invariant: the latest values are being stored, under the ICAS issued. -/
theorem write (h : MetaInv MD icas hi) :
    MetaInv (writemetadata MD).1 (icas ++ (writemetadata MD).2.toList) hi := by
  have hicas := h.icas
  unfold writemetadata
  split_ifs at hicas ⊢ with hw
  · exact ⟨h.stored_le, h.storing_le, h.latest_le, by simp [hw, hicas]⟩
  · exact ⟨UInt64.le_trans h.stored_le h.storing_le, UInt64.le_refl _, h.latest_le,
      by simp [hicas]⟩

theorem writeIfWanted (h : MetaInv MD icas hi) :
    MetaInv (writeIfWanted MD).1 (icas ++ (writeIfWanted MD).2.toList) hi := by
  unfold LbsDynamodb.writeIfWanted
  split_ifs
  · exact h.write
  · simpa using h

/-- A write of state.c keeps the invariant: it changes `nextblk` or `lastblk` only. -/
theorem stateWrite (h : MetaInv MD icas hi) {set : MTuple κ → MTuple κ}
    (hset : ∀ t, (set t).deletedto = t.deletedto) {cb : κ} {p : Metadata κ × Option Icas}
    (hp : metadataStateWrite set MD cb = some p) : MetaInv p.1 (icas ++ p.2.toList) hi := by
  unfold metadataStateWrite at hp
  split_ifs at hp
  rw [← Option.some.inj hp]
  have h' : MetaInv { MD with latest := { set MD.latest with callbackState := some cb } } icas hi :=
    ⟨h.stored_le, by simpa [hset] using h.storing_le, by simpa [hset] using h.latest_le, h.icas⟩
  exact h'.write

/-- The write in progress completing keeps the invariant: its ICAS is answered and the values
being stored are stored. -/
theorem callbackWrite (h : MetaInv MD icas hi) {r : Icas} (hr : r ∈ icas) :
    MetaInv (callbackWritemetadata MD) (icas.erase r) hi := by
  have hicas := h.icas
  split_ifs at hicas
  · subst hicas
    rw [List.mem_singleton] at hr
    subst hr
    exact ⟨UInt64.le_refl _, h.storing_le, h.latest_le, by simp [callbackWritemetadata]⟩
  · simp [hicas] at hr

end MetaInv

/-! ## The invariant -/

/-- What the running process keeps: its deleter's invariant, its metadata's, the DELETEs in
flight are the deleter's blocks in progress, and every value it passed is at most its latest. -/
structure ProcInv (W : DWorld) (D : Deleteto) (MD : Metadata Unit) : Prop where
  deleter : DeletetoInv D (metadataDeletedtoRead MD) W.completed W.issued
  metadata : MetaInv MD W.icas D.deletedto
  dels : W.dels = D.ip
  passed : ∀ v ∈ W.passed, v ≤ MD.latest.deletedto

/-- What holds whatever process runs: below the stored `deletedto` and below what any ICAS of a
dead process would store, every block has been deleted. -/
structure DWorld.Safe (W : DWorld) : Prop where
  item : ∀ b, b < W.item.deletedto → b ∈ W.completed
  orphanIcas : ∀ r ∈ W.orphanIcas, ∀ b, b < r.new.deletedto → b ∈ W.completed

/-- The invariant of the system. -/
structure DWorld.Inv (W : DWorld) : Prop extends W.Safe where
  idle : W.proc = none → W.dels = [] ∧ W.icas = []
  proc : ∀ D MD, W.proc = some (D, MD) → ProcInv W D MD

namespace ProcInv

variable {W : DWorld} {D : Deleteto} {MD : Metadata Unit}

/-- Every block below a value at most the reported one has been deleted. -/
theorem completed_of_le (h : ProcInv W D MD) {v b : UInt64} (hv : v ≤ D.deletedto)
    (hb : b < v) : b ∈ W.completed :=
  h.deleter.completed_of_lt (UInt64.lt_of_lt_of_le hb hv)

/-- More completed DELETEs keep the process's invariant. -/
theorem mono {W' : DWorld} (h : ProcInv W D MD) (hC : ∀ b ∈ W.completed, b ∈ W'.completed)
    (hI : W'.issued = W.issued) (hicas : W'.icas = W.icas) (hdels : W'.dels = W.dels)
    (hpassed : W'.passed = W.passed) : ProcInv W' D MD :=
  ⟨hI ▸ h.deleter.mono hC, hicas ▸ h.metadata, hdels ▸ h.dels, hpassed ▸ h.passed⟩

/-- A `poke` keeps the process's invariant: it passes the reported value, which is at least
every value passed before. -/
theorem poked (h : ProcInv W D MD) :
    ProcInv (W.poked (poke D MD)) (poke D MD).1 (poke D MD).2.1 := by
  obtain ⟨hdel, hip, hdt⟩ := poke_deleter h.deleter
  have hread : metadataDeletedtoRead (poke D MD).2.1 = metadataDeletedtoRead MD := by
    simp [metadataDeletedtoRead, poke_stored]
  refine ⟨?_, ?_, ?_, ?_⟩
  · rw [hread, DWorld.poked_completed, DWorld.poked_issued]
    exact hdel
  · -- `poke` records the reported value, then at most starts a write
    rw [hdt, DWorld.poked_icas]
    have hw := h.metadata.deletedtoWrite
    rcases poke_metadata D MD with hm | hm <;> rw [Prod.mk.injEq] at hm <;> rw [hm.1, hm.2]
    · simpa using hw
    · exact hw.write
  · rw [DWorld.poked_dels, h.dels, hip]
  · rw [DWorld.poked_passed, poke_latest_deletedto]
    intro v hv
    rcases List.mem_append.mp hv with hv | hv
    · exact UInt64.le_trans (h.passed v hv) h.metadata.latest_le
    · rw [List.mem_singleton.mp hv]
      exact UInt64.le_refl _

/-- Going on without a `poke` keeps the process's invariant when the metadata keeps its stored
and latest `deletedto` and its invariant with the ICAS issued. -/
theorem issue (h : ProcInv W D MD) {MD' : Metadata Unit} {r : Option Icas}
    (hstored : MD'.stored = MD.stored) (hlatest : MD'.latest.deletedto = MD.latest.deletedto)
    (hmeta : MetaInv MD' (W.icas ++ r.toList) D.deletedto) :
    ProcInv (W.issue (D, MD', [], r)) D MD' := by
  refine ⟨?_, by simpa using hmeta, by simpa using h.dels, by simpa [hlatest] using h.passed⟩
  simpa [metadataDeletedtoRead, hstored] using h.deleter

/-- The end of `callback_writemetadata` keeps the process's invariant. -/
theorem writeAgain (h : ProcInv W D MD) (hp : W.proc = some (D, MD)) :
    W.writeAgain.proc = some (D, (writeIfWanted MD).1) ∧
      ProcInv W.writeAgain D (writeIfWanted MD).1 := by
  unfold DWorld.writeAgain
  rw [hp]
  exact ⟨rfl, h.issue (writeIfWanted_stored MD) (writeIfWanted_latest_deletedto MD)
    h.metadata.writeIfWanted⟩

end ProcInv

namespace DWorld

variable {W : DWorld} {D : Deleteto} {MD : Metadata Unit}

/-- The world's part does not read the running process. -/
theorem Safe.issue (hS : W.Safe) (p : Deleteto × Metadata Unit × List UInt64 × Option Icas) :
    (W.issue p).Safe :=
  ⟨hS.item, hS.orphanIcas⟩

theorem Safe.poked (hS : W.Safe) (p : Deleteto × Metadata Unit × List UInt64 × Option Icas) :
    (W.poked p).Safe :=
  ⟨hS.item, hS.orphanIcas⟩

theorem Safe.writeAgain (hS : W.Safe) : W.writeAgain.Safe := by
  unfold DWorld.writeAgain
  split
  · exact hS.issue _
  · exact hS

/-- More completed DELETEs keep the world's part. -/
theorem Safe.mono {W' : DWorld} (hS : W.Safe) (hC : ∀ b ∈ W.completed, b ∈ W'.completed)
    (hitem : W'.item = W.item) (horph : W'.orphanIcas = W.orphanIcas) : W'.Safe :=
  ⟨fun b hb => hC b (hS.item b (hitem ▸ hb)),
    fun r hr b hb => hC b (hS.orphanIcas r (horph ▸ hr) b hb)⟩

/-- The invariant from the world's part and the running process's. -/
theorem Inv.of_proc (hS : W.Safe) (hp : W.proc = some (D, MD)) (h : ProcInv W D MD) : W.Inv where
  toSafe := hS
  idle := by simp [hp]
  proc D' MD' hp' := by
    rw [hp, Option.some.injEq, Prod.mk.injEq] at hp'
    obtain ⟨rfl, rfl⟩ := hp'
    exact h

theorem Inv.procInv (hW : W.Inv) (hp : W.proc = some (D, MD)) : ProcInv W D MD :=
  hW.proc D MD hp

/-- What an ICAS of the running process stores has everything below it deleted. -/
theorem Inv.icas_safe (hW : W.Inv) {r : Icas} (hr : r ∈ W.icas) :
    ∀ b, b < r.new.deletedto → b ∈ W.completed := by
  cases hp : W.proc with
  | none => simp [(hW.idle hp).2] at hr
  | some P =>
    obtain ⟨D, MD⟩ := P
    have h := hW.procInv hp
    exact fun b hb => h.completed_of_le (h.metadata.new_le hr) hb

end DWorld

/-! ## Every step -/

section Steps

open DWorld

variable {W : DWorld} {D : Deleteto} {MD : Metadata Unit}

theorem deleteto_inv (hW : W.Inv) (hp : W.proc = some (D, MD)) (N : UInt64) :
    (W.poked (deletetoDeleteto D MD N)).Inv := by
  have h := hW.procInv hp
  have hD : ProcInv W (if D.N < N then { D with N } else D) MD := by
    refine ⟨h.deleter.raise N, ?_, ?_, h.passed⟩ <;> split_ifs
    exacts [h.metadata, h.metadata, h.dels, h.dels]
  exact .of_proc (hW.toSafe.poked _) rfl hD.poked

theorem deleteDone_inv (hW : W.Inv) (hp : W.proc = some (D, MD)) {X : UInt64}
    (hX : X ∈ W.dels) {p : Deleteto × Metadata Unit × List UInt64 × Option Icas}
    (hcb : callbackDone D MD X = some p) :
    ({ W with dels := W.dels.erase X, completed := W.completed ++ [X] }.poked p).Inv := by
  have h := hW.procInv hp
  unfold callbackDone at hcb
  split_ifs at hcb
  rw [← Option.some.inj hcb]
  have hXip : X ∈ D.ip := h.dels ▸ hX
  -- the DELETE of `X` leaves the blocks in progress for the completed ones
  have hD : ProcInv { W with dels := W.dels.erase X, completed := W.completed ++ [X] }
      { D with ip := D.ip.erase X, npending := D.npending - 1 } MD :=
    ⟨h.deleter.complete hXip, h.metadata.mono (deletedto_le_erase h.deleter.sorted h.deleter.lt_M X),
      by simp [h.dels], h.passed⟩
  have hS : ({ W with dels := W.dels.erase X, completed := W.completed ++ [X] } : DWorld).Safe :=
    hW.toSafe.mono (fun b hb => List.mem_append_left _ hb) rfl rfl
  exact .of_proc (hS.poked _) rfl hD.poked

theorem writeDone_inv (hW : W.Inv) (hp : W.proc = some (D, MD)) {r : Icas} (hr : r ∈ W.icas)
    {I : Item} (hI : r.perform W.item = some I) :
    ({ W with item := I, icas := W.icas.erase r }.writeDone D MD).Inv := by
  have h := hW.procInv hp
  set W₁ : DWorld := { W with item := I, icas := W.icas.erase r } with hW₁
  -- the table stores what the ICAS carries, below which everything has been deleted
  have hS : W₁.Safe :=
    ⟨show ∀ b, b < I.deletedto → b ∈ W.completed by
      rw [Icas.eq_new_of_perform hI]; exact hW.icas_safe hr, hW.orphanIcas⟩
  have h₁ : ProcInv W₁ D (callbackWritemetadata MD) :=
    ⟨h.deleter.mono_read h.metadata.stored_le h.metadata.storing_le_hi,
      h.metadata.callbackWrite hr, h.dels, h.passed⟩
  unfold DWorld.writeDone
  dsimp only
  split_ifs
  · have h₂ := h₁.poked
    have hw := h₂.writeAgain (by simp)
    exact .of_proc (hS.poked _).writeAgain hw.1 hw.2
  · have h₂ : ProcInv (W₁.issue (D, callbackWritemetadata MD, [], none)) D
        (callbackWritemetadata MD) := h₁.issue rfl rfl (by simpa using h₁.metadata)
    have hw := h₂.writeAgain (by simp)
    exact .of_proc (hS.issue _).writeAgain hw.1 hw.2

theorem perform_inv (hW : W.Inv) {r : Icas} (hr : r ∈ W.icas ++ W.orphanIcas) {I : Item}
    (hI : r.perform W.item = some I) : ({ W with item := I } : DWorld).Inv where
  item := by
    show ∀ b, b < I.deletedto → b ∈ W.completed
    rw [Icas.eq_new_of_perform hI]
    rcases List.mem_append.mp hr with hr | hr
    · exact hW.icas_safe hr
    · exact hW.orphanIcas r hr
  orphanIcas := hW.orphanIcas
  idle := hW.idle
  proc D MD hp := (hW.procInv hp).mono (fun _ hb => hb) rfl rfl rfl rfl

/-- A write of state.c, which sets `nextblk` or `lastblk`, keeps the invariant. -/
theorem stateWrite_inv (hW : W.Inv) (hp : W.proc = some (D, MD)) {set : MTuple Unit → MTuple Unit}
    {p : Metadata Unit × Option Icas} (hw : metadataStateWrite set MD () = some p)
    (hset : ∀ t, (set t).deletedto = t.deletedto) : (W.issue (D, p.1, [], p.2)).Inv :=
  have h := hW.procInv hp
  .of_proc (hW.toSafe.issue _) rfl (h.issue (metadataStateWrite_stored MD hw)
    (metadataStateWrite_latest_deletedto MD hset hw) (h.metadata.stateWrite hset hw))

theorem stop_inv (hW : W.Inv) (hp : W.proc = some (D, MD)) :
    (W.poked (deletetoStop D MD)).Inv := by
  have h := hW.procInv hp
  have hD : ProcInv W { D with shuttingdown := 1 } MD :=
    ⟨h.deleter.congr rfl rfl rfl rfl h.deleter.flushed, h.metadata, h.dels, h.passed⟩
  exact .of_proc (hW.toSafe.poked _) rfl hD.poked

/-- The death of the process keeps the invariant: what its ICAS would store has everything
below it deleted. -/
theorem crash_inv (hW : W.Inv) :
    ({ W with
        proc := none, dels := [], icas := [], orphanDels := W.orphanDels ++ W.dels,
        orphanIcas := W.orphanIcas ++ W.icas } : DWorld).Inv where
  item := hW.item
  orphanIcas r hr := by
    rcases List.mem_append.mp hr with hr | hr
    · exact hW.orphanIcas r hr
    · exact hW.icas_safe hr
  idle _ := ⟨rfl, rfl⟩
  proc _ _ hp := by simp at hp

theorem orphanDone_inv (hW : W.Inv) {X : UInt64} :
    ({ W with orphanDels := W.orphanDels.erase X, completed := W.completed ++ [X] } : DWorld).Inv :=
  have hC : ∀ b ∈ W.completed, b ∈ W.completed ++ [X] := fun _ hb => List.mem_append_left _ hb
  { toSafe := hW.toSafe.mono hC rfl rfl
    idle := hW.idle
    proc := fun _ _ hp => (hW.procInv hp).mono hC rfl rfl rfl rfl }

/-- A new process keeps the invariant: its deleter starts from the stored `deletedto`, below
which everything has been deleted, with nothing in flight. -/
theorem start_inv (hW : W.Inv) (hnone : W.proc = none) (pid : ℕ) :
    ({ W with
        item := (claimIcas W.item pid).new
        proc := some (deletetoInit (metadataInit (claimIcas W.item pid).new pid))
        issued := []
        passed := [] } : DWorld).Inv := by
  obtain ⟨hdels, hicas⟩ := hW.idle hnone
  -- the deleter starts at `M = deletedto` with nothing in progress
  have hread : metadataDeletedtoRead (deletetoInit ((metadataInit
      (claimIcas W.item pid).new pid : Metadata Unit))).2 = W.item.deletedto := rfl
  have hD : DeletetoInv (deletetoInit (metadataInit (claimIcas W.item pid).new pid : Metadata Unit)).1
      W.item.deletedto W.completed [] :=
    { sorted := List.Pairwise.nil
      lt_M := fun _ hX => absurd hX List.not_mem_nil
      below := fun b hb => Or.inl (hW.item b hb)
      npending := rfl
      npending_le := Nat.zero_le _
      read_le := UInt64.le_refl _
      M_le := Nat.le_add_right _ _
      issued := fun _ hX => absurd hX List.not_mem_nil
      flushed := UInt64.zero_le }
  refine .of_proc ⟨hW.item, hW.orphanIcas⟩ rfl ⟨hread ▸ hD, ?_, hdels, fun _ hv => absurd hv List.not_mem_nil⟩
  exact ⟨UInt64.le_refl _, UInt64.le_refl _, UInt64.le_refl _, by simp [hicas, metadataInit,
    metadataDeletedtoRegister]⟩

/-- A table lbs-dynamodb-init created satisfies the invariant. -/
theorem dInit_inv (h : dInit W) : W.Inv := by
  obtain ⟨hproc, hitem, hdels, hicas, -, horph, -, -, -⟩ := h
  refine ⟨⟨?_, by simp [horph]⟩, fun _ => ⟨hdels, hicas⟩, by simp [hproc]⟩
  intro b hb
  rw [hitem] at hb
  exact absurd (UInt64.lt_iff_toNat_lt.mp hb) (by simp [createmetadata])

/-- Every step keeps the invariant. -/
theorem DStep.inv {W W' : DWorld} (hW : W.Inv) (h : DStep W W') : W'.Inv := by
  cases h with
  | deleteto hp => exact deleteto_inv hW hp _
  | deleteDone hp hX hcb => exact deleteDone_inv hW hp hX hcb
  | writeDone hp hr hI => exact writeDone_inv hW hp hr hI
  | perform hr hI => exact perform_inv hW hr hI
  | nextblkWrite hp hw => exact stateWrite_inv hW hp hw fun _ => rfl
  | lastblkWrite hp hw => exact stateWrite_inv hW hp hw fun _ => rfl
  | stop hp => exact stop_inv hW hp
  | crash => exact crash_inv hW
  | orphanDone _ => exact orphanDone_inv hW
  | start hnone => exact start_inv hW hnone _

theorem reachable_inv (h : Reachable dInit DStep W) : W.Inv :=
  h.invariant (fun _ h₀ => dInit_inv h₀) (fun _ _ hI hs => DStep.inv hI hs)

/-- The assertion of `callback_done` never fails: a DELETE in flight is counted in `npending`. -/
theorem callbackDone_isSome (h : Reachable dInit DStep W) (hp : W.proc = some (D, MD))
    {X : UInt64} (hX : X ∈ W.dels) : (callbackDone D MD X).isSome := by
  have hP := (reachable_inv h).procInv hp
  have hpos : 0 < D.npending := by
    rw [hP.deleter.npending, ← hP.dels]
    exact List.length_pos_of_mem hX
  simp [callbackDone, hpos]

end Steps

/-- The world after a process started on a table lbs-dynamodb-init created, under the process
ID `1`, and a FREE of the blocks below `5` reached its deleter. -/
def freedWorld : DWorld :=
  (⟨some (deletetoInit (metadataInit (claimIcas createmetadata 1).new 1)),
      (claimIcas createmetadata 1).new, [], [], [], [], [], [], []⟩ : DWorld).poked
    (deletetoDeleteto (deletetoInit (metadataInit (claimIcas createmetadata 1).new 1 : Metadata Unit)).1
      (deletetoInit (metadataInit (claimIcas createmetadata 1).new 1)).2 5)

end Kivaloo.LbsDynamodb
