import Mathlib

/-!
# The metadata of lbs-dynamodb (lbs-dynamodb/metadata.c)

Four 64-bit values (`nextblk`, `deletedto`, `generation`, `lastblk`) and the ID of the process
that owns them are stored as one item of the metadata table.  A process claims the item on
start by reading it and compare-and-swapping it back under its own random process ID; every
later store is an ICAS from the values last stored to the new ones, and a process whose ICAS
fails has lost the item to another process and exits.

`struct metadata` keeps three tuples: `M_stored`, the values last stored; `M_storing`, the
values of the write in progress; and `M_latest`, the values the next write will store, with the
callback that state.c asked for when they are stored.  At most one write is in progress; a
write asked for meanwhile is remembered in `write_wanted` and started when the write in
progress completes, after the callbacks.

A callback and its cookie are one value of the type parameter `κ`; the 104 bytes of the item are
the fields they encode, `itemsz` and `tableid`, which no process changes, left out.
-/

namespace Kivaloo.LbsDynamodb

/-- `struct mtuple`: the metadata values and the callback to perform once they are stored. -/
structure MTuple (κ : Type) where
  nextblk : UInt64
  deletedto : UInt64
  generation : UInt64
  lastblk : UInt64
  callbackState : Option κ
deriving DecidableEq, Repr

/-- The metadata item as the metadata table holds it. -/
structure Item where
  nextblk : UInt64
  deletedto : UInt64
  generation : UInt64
  lastblk : UInt64
  processId : ℕ
deriving DecidableEq, Repr

variable {κ : Type}

/-- The item `writemetadata` encodes from a tuple and a process ID. -/
def MTuple.encode (t : MTuple κ) (pid : ℕ) : Item :=
  ⟨t.nextblk, t.deletedto, t.generation, t.lastblk, pid⟩

/-- The tuple `callback_readmetadata` parses from an item. -/
def Item.parse (I : Item) : MTuple κ :=
  ⟨I.nextblk, I.deletedto, I.generation, I.lastblk, none⟩

/-- An ICAS request of the metadata item: replace `old` by `new`. -/
structure Icas where
  old : Item
  new : Item
deriving DecidableEq, Repr

/-- ICAS as the table performs it: it succeeds iff the item holds `old` or already holds `new`,
so that a request retried after it succeeded succeeds again. -/
def Icas.perform (r : Icas) (cur : Item) : Option Item :=
  if cur = r.old ∨ cur = r.new then some r.new else none

/-- `struct metadata`; the request queue, `init_done` and `init_lostrace` (used only while
`metadata_init` claims the item), `itemsz` and `tableid` are left out. -/
structure Metadata (κ : Type) where
  /-- `M_stored`: the values last stored. -/
  stored : MTuple κ
  /-- `M_storing`: the values of the write in progress. -/
  storing : MTuple κ
  /-- `M_latest`: the values the next write stores. -/
  latest : MTuple κ
  processId : ℕ
  /-- A callback is registered by `metadata_deletedto_register`. -/
  callbackDeletedto : Bool
  writeInprogress : Bool
  writeWanted : Bool

/-- `writemetadata(M)`: if a write is in progress, ask for another one; otherwise store the
latest values, keeping their callback with them, and issue the ICAS from the stored values. -/
def writemetadata (M : Metadata κ) : Metadata κ × Option Icas :=
  if M.writeInprogress then ({ M with writeWanted := true }, none)
  else
    ({ M with
        writeInprogress := true
        writeWanted := false
        storing := M.latest
        latest := { M.latest with callbackState := none, generation := M.latest.generation + 1 } },
      some ⟨M.stored.encode M.processId, M.latest.encode M.processId⟩)

/-- `callback_writemetadata` after the ICAS succeeded, up to its callbacks: the values being
stored are now stored.  The callback recorded with them and then the registered deletedto
callback are performed next, and last `writeIfWanted`. -/
def callbackWritemetadata (M : Metadata κ) : Metadata κ :=
  { M with writeInprogress := false, stored := M.storing }

/-- The end of `callback_writemetadata`: start another write if one was asked for. -/
def writeIfWanted (M : Metadata κ) : Metadata κ × Option Icas :=
  if M.writeWanted then writemetadata M else (M, none)

/-- The ICAS of `callback_readmetadata`, claiming the item read under the process ID `pid`. -/
def claimIcas (I : Item) (pid : ℕ) : Icas := ⟨I, { I with processId := pid }⟩

/-- `metadata_init` once the claim of the item `I` under `pid` succeeded: the next values are
those stored with one higher generation.  `M_storing` is not read before the first write sets
it; it starts as the stored values. -/
def metadataInit (I : Item) (pid : ℕ) : Metadata κ where
  stored := I.parse
  storing := I.parse
  latest := { I.parse with generation := I.generation + 1 }
  processId := pid
  callbackDeletedto := false
  writeInprogress := false
  writeWanted := false

/-- `metadata_nextblk_write` and `metadata_lastblk_write`: record a new value by `set` and the
callback, then write; `none` when the assertion that no callback is recorded fails. -/
def metadataStateWrite (set : MTuple κ → MTuple κ) (M : Metadata κ) (cb : κ) :
    Option (Metadata κ × Option Icas) :=
  if M.latest.callbackState.isNone then
    some (writemetadata { M with latest := { set M.latest with callbackState := some cb } })
  else none

/-- `metadata_nextblk_write(M, nextblk, callback, cookie)`. -/
def metadataNextblkWrite (M : Metadata κ) (nextblk : UInt64) (cb : κ) :
    Option (Metadata κ × Option Icas) :=
  metadataStateWrite (fun t => { t with nextblk }) M cb

/-- `metadata_lastblk_write(M, lastblk, callback, cookie)`. -/
def metadataLastblkWrite (M : Metadata κ) (lastblk : UInt64) (cb : κ) :
    Option (Metadata κ × Option Icas) :=
  metadataStateWrite (fun t => { t with lastblk }) M cb

/-- `metadata_nextblk_read(M)`: the stored value. -/
def metadataNextblkRead (M : Metadata κ) : UInt64 := M.stored.nextblk

/-- `metadata_lastblk_read(M)`: the stored value. -/
def metadataLastblkRead (M : Metadata κ) : UInt64 := M.stored.lastblk

/-- `metadata_deletedto_read(M)`: the stored value. -/
def metadataDeletedtoRead (M : Metadata κ) : UInt64 := M.stored.deletedto

/-- `metadata_deletedto_write(M, deletedto)`: record the value for the next write. -/
def metadataDeletedtoWrite (M : Metadata κ) (deletedto : UInt64) : Metadata κ :=
  { M with latest := { M.latest with deletedto } }

/-- `metadata_deletedto_register(M, callback, cookie)`, the callback being the deleter's `poke`
(`true`) or `NULL` (`false`). -/
def metadataDeletedtoRegister (M : Metadata κ) (b : Bool) : Metadata κ :=
  { M with callbackDeletedto := b }

/-- `metadata_flush(M)`. -/
def metadataFlush (M : Metadata κ) : Metadata κ × Option Icas := writemetadata M

/-- A successful ICAS leaves the item it stores. -/
theorem Icas.eq_new_of_perform {r : Icas} {cur I : Item} (h : r.perform cur = some I) :
    I = r.new := by
  unfold Icas.perform at h
  split_ifs at h
  exact (Option.some.inj h).symm

/-! ## What a write does -/

section Write

variable (M : Metadata κ)

@[simp] theorem writemetadata_stored : (writemetadata M).1.stored = M.stored := by
  unfold writemetadata; split_ifs <;> rfl

@[simp] theorem writemetadata_processId : (writemetadata M).1.processId = M.processId := by
  unfold writemetadata; split_ifs <;> rfl

@[simp] theorem writemetadata_callbackDeletedto :
    (writemetadata M).1.callbackDeletedto = M.callbackDeletedto := by
  unfold writemetadata; split_ifs <;> rfl

@[simp] theorem writemetadata_writeInprogress : (writemetadata M).1.writeInprogress = true := by
  unfold writemetadata; split_ifs with h <;> simp [h]

@[simp] theorem writemetadata_latest_deletedto :
    (writemetadata M).1.latest.deletedto = M.latest.deletedto := by
  unfold writemetadata; split_ifs <;> rfl

@[simp] theorem writemetadata_latest_nextblk :
    (writemetadata M).1.latest.nextblk = M.latest.nextblk := by
  unfold writemetadata; split_ifs <;> rfl

@[simp] theorem writemetadata_latest_lastblk :
    (writemetadata M).1.latest.lastblk = M.latest.lastblk := by
  unfold writemetadata; split_ifs <;> rfl

@[simp] theorem metadataDeletedtoRead_write (d : UInt64) :
    metadataDeletedtoRead (metadataDeletedtoWrite M d) = metadataDeletedtoRead M := rfl

@[simp] theorem writeIfWanted_stored : (writeIfWanted M).1.stored = M.stored := by
  unfold writeIfWanted; split_ifs <;> simp

@[simp] theorem writeIfWanted_latest_deletedto :
    (writeIfWanted M).1.latest.deletedto = M.latest.deletedto := by
  unfold writeIfWanted; split_ifs <;> simp

/-- A write of state.c keeps the stored values, and the latest `deletedto` when it sets
another field. -/
theorem metadataStateWrite_stored {set : MTuple κ → MTuple κ} {cb : κ}
    {p : Metadata κ × Option Icas} (hp : metadataStateWrite set M cb = some p) :
    p.1.stored = M.stored := by
  unfold metadataStateWrite at hp
  split_ifs at hp
  rw [← Option.some.inj hp, writemetadata_stored]

theorem metadataStateWrite_latest_deletedto {set : MTuple κ → MTuple κ}
    (hset : ∀ t, (set t).deletedto = t.deletedto) {cb : κ} {p : Metadata κ × Option Icas}
    (hp : metadataStateWrite set M cb = some p) :
    p.1.latest.deletedto = M.latest.deletedto := by
  unfold metadataStateWrite at hp
  split_ifs at hp
  rw [← Option.some.inj hp, writemetadata_latest_deletedto]
  exact hset _

@[simp] theorem callbackWritemetadata_stored : (callbackWritemetadata M).stored = M.storing := rfl

@[simp] theorem callbackWritemetadata_writeInprogress :
    (callbackWritemetadata M).writeInprogress = false := rfl

end Write

/-! ## The callbacks waiting for a store -/

/-- The state callbacks not performed yet: that of the write in progress, then the one recorded
in `M_latest` for the next write. -/
def Metadata.pending (M : Metadata κ) : List κ :=
  (if M.writeInprogress then M.storing.callbackState.toList else []) ++
    M.latest.callbackState.toList

section Pending

variable (M : Metadata κ)

/-- A write moves the latest callback to the write it starts, or leaves it for the next one. -/
@[simp] theorem pending_writemetadata : (writemetadata M).1.pending = M.pending := by
  cases h : M.writeInprogress <;> simp [writemetadata, Metadata.pending, h]

@[simp] theorem pending_writeIfWanted : (writeIfWanted M).1.pending = M.pending := by
  unfold writeIfWanted; split_ifs <;> simp

@[simp] theorem pending_metadataDeletedtoWrite (d : UInt64) :
    (metadataDeletedtoWrite M d).pending = M.pending := rfl

/-- When the write in progress completes, its callback is the first one waiting. -/
theorem pending_callbackWritemetadata (h : M.writeInprogress = true) :
    M.pending = M.storing.callbackState.toList ++ (callbackWritemetadata M).pending := by
  simp [Metadata.pending, callbackWritemetadata, h]

/-- Nothing waiting leaves no callback in a write in progress. -/
theorem storing_callbackState_of_pending_nil (h : M.pending = []) (hw : M.writeInprogress = true) :
    M.storing.callbackState = none := by
  simp only [Metadata.pending, hw, if_true, List.append_eq_nil_iff, Option.toList_eq_nil_iff] at h
  exact h.1

/-- A write of state.c adds its callback after those waiting. -/
theorem pending_metadataStateWrite {set : MTuple κ → MTuple κ} {cb : κ}
    {p : Metadata κ × Option Icas} (hp : metadataStateWrite set M cb = some p) :
    p.1.pending = M.pending ++ [cb] := by
  unfold metadataStateWrite at hp
  split_ifs at hp with hnone
  rw [← Option.some.inj hp, pending_writemetadata]
  simp [Metadata.pending, Option.isNone_iff_eq_none.mp hnone]

end Pending

/-! ## The ICAS in flight -/

/-- The ICAS of the write in progress, if there is one. -/
def Metadata.inflight (M : Metadata κ) : List Icas :=
  if M.writeInprogress then [⟨M.stored.encode M.processId, M.storing.encode M.processId⟩] else []

section Inflight

variable (M : Metadata κ)

/-- A write issues its ICAS exactly when none is in flight. -/
@[simp] theorem inflight_writemetadata :
    (writemetadata M).1.inflight = M.inflight ++ (writemetadata M).2.toList := by
  cases h : M.writeInprogress <;> simp [writemetadata, Metadata.inflight, h]

@[simp] theorem inflight_writeIfWanted :
    (writeIfWanted M).1.inflight = M.inflight ++ (writeIfWanted M).2.toList := by
  unfold writeIfWanted; split_ifs <;> simp

@[simp] theorem inflight_metadataDeletedtoWrite (d : UInt64) :
    (metadataDeletedtoWrite M d).inflight = M.inflight := rfl

@[simp] theorem inflight_callbackWritemetadata : (callbackWritemetadata M).inflight = [] := by
  simp [Metadata.inflight, callbackWritemetadata]

theorem inflight_metadataStateWrite {set : MTuple κ → MTuple κ} {cb : κ}
    {p : Metadata κ × Option Icas} (hp : metadataStateWrite set M cb = some p) :
    p.1.inflight = M.inflight ++ p.2.toList := by
  unfold metadataStateWrite at hp
  split_ifs at hp
  rw [← Option.some.inj hp, inflight_writemetadata]
  rfl

theorem mem_inflight {r : Icas} :
    r ∈ M.inflight ↔ M.writeInprogress = true ∧
      r = ⟨M.stored.encode M.processId, M.storing.encode M.processId⟩ := by
  unfold Metadata.inflight
  split_ifs with h <;> simp [h]

end Inflight

end Kivaloo.LbsDynamodb
