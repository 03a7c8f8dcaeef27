import Kivaloo.Lib.Transition
import Kivaloo.LbsDynamodb.State
import Kivaloo.LbsDynamodb.Bookkeeping

/-!
# Writes of lbs-dynamodb across crashes

The system is the running lbs-dynamodb process (its dispatcher, state.c and its metadata), the
metadata item, and the requests in flight to the DynamoDB-KV daemons.  The dispatcher accepts an
APPEND at `nextblk` when none is in progress; the table performs each ICAS in flight, perhaps
more than once, and answers it later; PUTs complete in any order; the deleter records `deletedto`
values and flushes at any time.  The process may die at any point, its requests still in flight,
and a new process claims the item and reloads `nextblk` and `lastblk` from it.

Ghost lists record every APPEND accepted, every PUT issued (with the APPEND it belongs to and the
`nextblk` of the table when it was issued), every block whose PUT completed, every ICAS the table
performed successfully and every APPEND answered.

In every reachable state whose APPENDs all fit below `2^64` (`reachable_appends`): every PUT was
issued when the table's `nextblk` was above its block; the stored `lastblk` is `-1` or the last
block of an APPEND all of whose PUTs completed, and it is below the stored `nextblk`; no block is
PUT by two APPENDs; every APPEND answered had all its PUTs completed; and `lastblk` as PARAMS2
reports it is `-1` or the last block of an APPEND all of whose PUTs completed.  The blocks up to
`lastblk` need not all have been PUT: the blocks a process reserved before it died stay unwritten
below the next process's blocks (`reachable_unwrittenBlock`).
-/

namespace Kivaloo.LbsDynamodb

open Kivaloo.Lib

/-! ## APPENDs and committed values -/

/-- The blocks of the APPEND of `a.2` blocks at `a.1`, as `callback_append_put_nextblk` PUTs
them. -/
def appendBlocks (a : UInt64 × UInt32) : List UInt64 :=
  callbackAppendPutNextblk ⟨a.2, a.2.toUInt64, a.1⟩

/-- The last block of the APPEND of `a.2` blocks at `a.1`. -/
def appendLast (a : UInt64 × UInt32) : UInt64 := a.1 + a.2.toUInt64 - 1

/-- A `lastblk` value is committed when it is `-1` or the last block of an APPEND all of whose
blocks' PUTs completed. -/
def Committed (appends : List (UInt64 × UInt32)) (done : List UInt64) (L : UInt64) : Prop :=
  L = 0 - 1 ∨ ∃ a ∈ appends, appendLast a = L ∧ ∀ b ∈ appendBlocks a, b ∈ done

/-- `lastblk` is below `nextblk`, or `-1`. -/
def LastBelowNext (lastblk nextblk : UInt64) : Prop := lastblk < nextblk ∨ lastblk = 0 - 1

theorem Committed.mono {as as' : List (UInt64 × UInt32)} {ds ds' : List UInt64} {L : UInt64}
    (h : Committed as ds L) (has : ∀ a ∈ as, a ∈ as') (hds : ∀ b ∈ ds, b ∈ ds') :
    Committed as' ds' L := by
  rcases h with h | ⟨a, ha, hL, hb⟩
  · exact .inl h
  · exact .inr ⟨a, has a ha, hL, fun b hb' => hds b (hb b hb')⟩

/-- The last block of an APPEND, below the `nextblk` it leaves. -/
theorem lastBelowNext_sub_one (n : UInt64) : LastBelowNext (n - 1) n := by
  by_cases h : n = 0
  · exact .inr (by rw [h])
  · refine .inl (UInt64.lt_iff_toNat_lt.mpr ?_)
    have hpos : 0 < n.toNat := by
      rw [Nat.pos_iff_ne_zero, Ne, ← UInt64.toNat_zero, UInt64.toNat_inj]
      exact h
    have hle : 1 ≤ n := UInt64.le_iff_toNat_le.mpr (by simp only [UInt64.toNat_one]; omega)
    rw [UInt64.toNat_sub_of_le _ _ hle, UInt64.toNat_one]
    omega

/-- Raising `nextblk` keeps `lastblk` below it. -/
theorem LastBelowNext.mono {L n n' : UInt64} (h : LastBelowNext L n) (hn : n ≤ n') :
    LastBelowNext L n' := by
  rcases h with h | h
  · exact .inl (UInt64.lt_of_lt_of_le h hn)
  · exact .inr h

/-! ## The deleter -/

/-- What the deleter does to the metadata when it pokes: record a `deletedto` value, and perhaps
flush. -/
def deleterPoke {κ : Type} (v : UInt64) (flush : Bool) (MD : Metadata κ) :
    Metadata κ × Option Icas :=
  let MD := metadataDeletedtoWrite MD v
  if flush then metadataFlush MD else (MD, none)

/-! ## The system -/

/-- A PUT issued: the index of its APPEND among those accepted, its block, and the `nextblk` of
the metadata item when it was issued. -/
structure PutRecord where
  app : ℕ
  blk : UInt64
  stored : UInt64
deriving DecidableEq, Repr

/-- The running process: state.c's state, the metadata, and the cookie of the APPEND in progress
(whose presence is the dispatcher's `appendip`). -/
structure Proc where
  S : State
  MD : Metadata StateCallback
  append : Option AppendCookie

/-- lbs-dynamodb as far as writing goes. -/
structure AWorld where
  proc : Option Proc
  /-- The metadata item of the metadata table. -/
  item : Item
  /-- The running process's ICAS requests in flight. -/
  icas : List Icas
  /-- ICAS requests that dead processes left in flight. -/
  orphanIcas : List Icas
  /-- The blocks of the running process's PUTs in flight. -/
  puts : List UInt64
  /-- PUTs that dead processes left in flight. -/
  orphanPuts : List UInt64
  /-- Every APPEND accepted, in order. -/
  appends : List (UInt64 × UInt32)
  /-- Every PUT issued. -/
  putLog : List PutRecord
  /-- Every block whose PUT completed. -/
  done : List UInt64
  /-- Every ICAS the table performed successfully. -/
  acked : List Icas
  /-- The indices of the APPENDs answered. -/
  answered : List ℕ

namespace AWorld

/-- The running process goes on as `P`, having issued the ICAS `r`. -/
def issue (W : AWorld) (P : Proc) (r : Option Icas) : AWorld :=
  { W with proc := some P, icas := W.icas ++ r.toList }

/-- The running process's metadata goes on by `f`. -/
def metaStep (W : AWorld) (f : Metadata StateCallback → Metadata StateCallback × Option Icas) :
    AWorld :=
  match W.proc with
  | some P => W.issue { P with MD := (f P.MD).1 } (f P.MD).2
  | none => W

/-- The state callback that `callback_writemetadata` performs: `callback_append_put_nextblk`
PUTs the blocks of the APPEND in progress, and `callback_append_put_lastblk` answers it, after
which the dispatcher clears `appendip`. -/
def stateCallback (W : AWorld) (P : Proc) : Option StateCallback → AWorld
  | some .putNextblk =>
    match P.append with
    | some C =>
      { W with
        proc := some P
        puts := W.puts ++ callbackAppendPutNextblk C
        putLog := W.putLog ++ (callbackAppendPutNextblk C).map
          fun b => ⟨W.appends.length - 1, b, W.item.nextblk⟩ }
    | none => { W with proc := some P }
  | some .putLastblk =>
    { W with
      proc := some { P with S := (callbackAppendPutLastblk P.S).1, append := none }
      answered := W.answered ++ [W.appends.length - 1] }
  | none => { W with proc := some P }

/-- `callback_writemetadata` once the running process's ICAS `r` is answered with success: the
values are stored, state.c's callback is performed, the deleter pokes, and another write starts
if one was asked for. -/
def writeDone (W : AWorld) (P : Proc) (r : Icas) (v : UInt64) (flush : Bool) : AWorld :=
  let MD := callbackWritemetadata P.MD
  (({ W with icas := W.icas.erase r }.stateCallback { P with MD } MD.stored.callbackState).metaStep
    (deleterPoke v flush)).metaStep writeIfWanted

end AWorld

/-- The metadata and the state a new process starts from once it claimed the item `I` under
`pid`: `metadata_init`, `deleteto_init` (which registers the deleter's callback) and
`state_init`. -/
def startProc (I : Item) (pid : ℕ) : Proc :=
  let MD := (deletetoInit (metadataInit (claimIcas I pid).new pid : Metadata StateCallback)).2
  ⟨stateInit MD, MD, none⟩

/-- The steps of the system. -/
inductive AStep : AWorld → AWorld → Prop
  /-- `gotrequest` accepts an APPEND, of at least one block as `proto_lbs_request_read`
  requires, and calls `state_append`. -/
  | append {W : AWorld} {P : Proc} {R : AppendRequest} {S : State} {C : AppendCookie}
      {MD : Metadata StateCallback} {r : Option Icas} :
      W.proc = some P → gotrequestAppendOk P.S P.append.isSome R = true → R.nblks ≠ 0 →
      stateAppend P.S P.MD R = some (S, C, MD, r) →
      AStep W { W.issue ⟨S, MD, some C⟩ r with appends := W.appends ++ [(R.blkno, R.nblks)] }
  /-- The table performs an ICAS in flight; its answer comes later, if at all. -/
  | perform {W : AWorld} {r : Icas} {I : Item} :
      r ∈ W.icas ++ W.orphanIcas → r.perform W.item = some I →
      AStep W { W with item := I, acked := W.acked ++ [r] }
  /-- The running process's ICAS, which the table performed, is answered with success. -/
  | writeDone {W : AWorld} {P : Proc} {r : Icas} {v : UInt64} {flush : Bool} :
      W.proc = some P → r ∈ W.icas → r ∈ W.acked → AStep W (W.writeDone P r v flush)
  /-- A PUT of the running process succeeds and `callback_append_put_blks` runs. -/
  | putDone {W : AWorld} {P : Proc} {b : UInt64} {C : AppendCookie} {S : State}
      {C' : AppendCookie} {MD : Metadata StateCallback} {r : Option Icas} :
      W.proc = some P → b ∈ W.puts → P.append = some C →
      callbackAppendPutBlks P.S C P.MD = some (S, C', MD, r) →
      AStep W { W.issue ⟨S, MD, some C'⟩ r with puts := W.puts.erase b, done := W.done ++ [b] }
  /-- The deleter pokes after a FREE or a completed DELETE. -/
  | deleter {W : AWorld} {P : Proc} {v : UInt64} {flush : Bool} :
      W.proc = some P → AStep W (W.metaStep (deleterPoke v flush))
  /-- The process dies (a failed request, a lost ICAS, or a crash), its requests in flight. -/
  | crash {W : AWorld} :
      AStep W { W with
        proc := none, icas := [], puts := [], orphanIcas := W.orphanIcas ++ W.icas,
        orphanPuts := W.orphanPuts ++ W.puts }
  /-- A PUT of a dead process completes. -/
  | orphanPutDone {W : AWorld} {b : UInt64} :
      b ∈ W.orphanPuts →
      AStep W { W with orphanPuts := W.orphanPuts.erase b, done := W.done ++ [b] }
  /-- A new process claims the item under `pid` and starts. -/
  | start {W : AWorld} {pid : ℕ} :
      W.proc = none →
      AStep W { W with item := (claimIcas W.item pid).new, proc := some (startProc W.item pid) }

/-- A table lbs-dynamodb-init created, before any process ran. -/
def aInit (W : AWorld) : Prop :=
  W.proc = none ∧ W.item = createmetadata ∧ W.icas = [] ∧ W.orphanIcas = [] ∧ W.puts = [] ∧
    W.orphanPuts = [] ∧ W.appends = [] ∧ W.putLog = [] ∧ W.done = [] ∧ W.acked = [] ∧
    W.answered = []

/-- Every APPEND accepted fits below `2^64`: its blocks and the `nextblk` it leaves do not
wrap. -/
def AWorld.Fits (W : AWorld) : Prop := ∀ a ∈ W.appends, a.1.toNat + a.2.toNat < 2 ^ 64

instance (W : AWorld) : Decidable W.Fits :=
  inferInstanceAs (Decidable (∀ a ∈ W.appends, a.1.toNat + a.2.toNat < 2 ^ 64))

/-! ## The metadata's part of the invariant -/

/-- An ICAS that is safe to perform: it does not lower `nextblk`, and what it stores has a
committed `lastblk` below its `nextblk`. -/
def IcasOK (as : List (UInt64 × UInt32)) (ds : List UInt64) (r : Icas) : Prop :=
  r.old.nextblk ≤ r.new.nextblk ∧ LastBelowNext r.new.lastblk r.new.nextblk ∧
    Committed as ds r.new.lastblk

/-- A successful ICAS that does not lower `nextblk` leaves the item's `nextblk` at least where
it was. -/
theorem Icas.nextblk_le_of_perform {r : Icas} (hr : r.old.nextblk ≤ r.new.nextblk) {cur I : Item}
    (h : r.perform cur = some I) : cur.nextblk ≤ I.nextblk := by
  have hI := Icas.eq_new_of_perform h
  unfold Icas.perform at h
  split_ifs at h with hcur
  subst hI
  rcases hcur with rfl | rfl
  · exact hr
  · exact UInt64.le_refl _

/-- What the running process's metadata keeps, against state.c's state `S` and the ICAS in
flight: state.c's `nextblk` and `lastblk` are the latest values; the ICAS in flight is that of
the write in progress; `nextblk` grows from the stored to the storing to the latest values; the
values being stored and the latest have a committed `lastblk` below their `nextblk`; and a write
in progress that carries `callback_append_put_nextblk` stores state.c's `nextblk`. -/
structure MetaOK (as : List (UInt64 × UInt32)) (ds : List UInt64) (S : State)
    (MD : Metadata StateCallback) (icas : List Icas) : Prop where
  nextblk : S.nextblk = MD.latest.nextblk
  lastblk : S.lastblk = MD.latest.lastblk
  icas : icas = if MD.writeInprogress then
    [⟨MD.stored.encode MD.processId, MD.storing.encode MD.processId⟩] else []
  stored_le : MD.stored.nextblk ≤ MD.storing.nextblk
  storing_le : MD.storing.nextblk ≤ MD.latest.nextblk
  storing_below : LastBelowNext MD.storing.lastblk MD.storing.nextblk
  latest_below : LastBelowNext MD.latest.lastblk MD.latest.nextblk
  storing_committed : Committed as ds MD.storing.lastblk
  latest_committed : Committed as ds MD.latest.lastblk
  storing_nextblk : MD.writeInprogress = true → MD.storing.callbackState = some .putNextblk →
    MD.storing.nextblk = S.nextblk

namespace MetaOK

variable {as : List (UInt64 × UInt32)} {ds : List UInt64} {S : State}
  {MD : Metadata StateCallback} {icas : List Icas}

/-- The ICAS in flight is safe to perform. -/
theorem icasOK (h : MetaOK as ds S MD icas) {r : Icas} (hr : r ∈ icas) : IcasOK as ds r := by
  rw [h.icas] at hr
  split_ifs at hr
  · rw [List.mem_singleton] at hr
    subst hr
    exact ⟨h.stored_le, h.storing_below, h.storing_committed⟩
  · simp at hr

theorem mono (h : MetaOK as ds S MD icas) {as' : List (UInt64 × UInt32)} {ds' : List UInt64}
    (has : ∀ a ∈ as, a ∈ as') (hds : ∀ b ∈ ds, b ∈ ds') : MetaOK as' ds' S MD icas :=
  { h with
    storing_committed := h.storing_committed.mono has hds
    latest_committed := h.latest_committed.mono has hds }

/-- Only state.c's `nextblk` and `lastblk` matter. -/
theorem congr_state (h : MetaOK as ds S MD icas) {S' : State} (hn : S'.nextblk = S.nextblk)
    (hl : S'.lastblk = S.lastblk) : MetaOK as ds S' MD icas :=
  { h with
    nextblk := hn ▸ h.nextblk
    lastblk := hl ▸ h.lastblk
    storing_nextblk := fun hw hc => hn ▸ h.storing_nextblk hw hc }

/-- A write keeps the invariant: the latest values are being stored, under the ICAS issued. -/
theorem write (h : MetaOK as ds S MD icas) :
    MetaOK as ds S (writemetadata MD).1 (icas ++ (writemetadata MD).2.toList) := by
  have hicas := h.icas
  cases hw : MD.writeInprogress
  · -- a new write stores the latest values
    rw [hw, if_neg Bool.false_ne_true] at hicas
    subst hicas
    simp only [writemetadata, hw, Bool.false_eq_true, if_false]
    exact ⟨h.nextblk, h.lastblk, rfl, UInt64.le_trans h.stored_le h.storing_le,
      UInt64.le_refl _, h.latest_below, h.latest_below, h.latest_committed, h.latest_committed,
      fun _ _ => h.nextblk.symm⟩
  · simp only [writemetadata, hw, if_true, Option.toList_none, List.append_nil]
    exact { h with icas := by simpa [hw] using hicas, storing_nextblk := fun _ => h.storing_nextblk hw }

theorem deletedtoWrite (h : MetaOK as ds S MD icas) (v : UInt64) :
    MetaOK as ds S (metadataDeletedtoWrite MD v) icas :=
  ⟨h.nextblk, h.lastblk, h.icas, h.stored_le, h.storing_le, h.storing_below, h.latest_below,
    h.storing_committed, h.latest_committed, h.storing_nextblk⟩

theorem deleterPoke (h : MetaOK as ds S MD icas) (v : UInt64) (flush : Bool) :
    MetaOK as ds S (LbsDynamodb.deleterPoke v flush MD).1
      (icas ++ (LbsDynamodb.deleterPoke v flush MD).2.toList) := by
  unfold LbsDynamodb.deleterPoke
  cases flush
  · simpa using h.deletedtoWrite v
  · exact (h.deletedtoWrite v).write

theorem writeIfWanted (h : MetaOK as ds S MD icas) :
    MetaOK as ds S (LbsDynamodb.writeIfWanted MD).1
      (icas ++ (LbsDynamodb.writeIfWanted MD).2.toList) := by
  unfold LbsDynamodb.writeIfWanted
  split_ifs
  · exact h.write
  · simpa using h

/-- The write in progress completing keeps the invariant: its ICAS is answered and the values
being stored are stored. -/
theorem callbackWrite (h : MetaOK as ds S MD icas) {r : Icas} (hr : r ∈ icas) :
    MetaOK as ds S (callbackWritemetadata MD) (icas.erase r) := by
  have hicas := h.icas
  split_ifs at hicas
  · subst hicas
    rw [List.mem_singleton] at hr
    subst hr
    exact ⟨h.nextblk, h.lastblk, by simp [callbackWritemetadata], UInt64.le_refl _, h.storing_le,
      h.storing_below, h.latest_below, h.storing_committed, h.latest_committed,
      fun hw => absurd hw (by simp [callbackWritemetadata])⟩
  · simp [hicas] at hr

/-- `state_append`'s write of a higher `nextblk` keeps the invariant when no callback is
waiting. -/
theorem nextblkWrite (h : MetaOK as ds S MD icas) (hpend : MD.pending = []) {n : UInt64}
    (hn : S.nextblk ≤ n) {p : Metadata StateCallback × Option Icas}
    (hp : metadataNextblkWrite MD n .putNextblk = some p) {S' : State} (hS'n : S'.nextblk = n)
    (hS'l : S'.lastblk = S.lastblk) : MetaOK as ds S' p.1 (icas ++ p.2.toList) := by
  unfold metadataNextblkWrite metadataStateWrite at hp
  split_ifs at hp
  rw [← Option.some.inj hp]
  -- the storing values carry no callback, so the new one is not theirs
  have hstoring := storing_callbackState_of_pending_nil MD hpend
  refine MetaOK.write ⟨hS'n, hS'l.trans h.lastblk, h.icas, h.stored_le,
    UInt64.le_trans h.storing_le (h.nextblk ▸ hn), h.storing_below,
    h.latest_below.mono (h.nextblk ▸ hn), h.storing_committed, h.latest_committed, ?_⟩
  intro hw hc
  rw [hstoring hw] at hc
  cases hc

/-- `callback_append_put_blks`'s write of `lastblk = nextblk - 1` keeps the invariant when no
callback is waiting and that value is committed. -/
theorem lastblkWrite (h : MetaOK as ds S MD icas) (hpend : MD.pending = [])
    (hc : Committed as ds (S.nextblk - 1)) {p : Metadata StateCallback × Option Icas}
    (hp : metadataLastblkWrite MD (S.nextblk - 1) .putLastblk = some p) {S' : State}
    (hS'n : S'.nextblk = S.nextblk) (hS'l : S'.lastblk = S.nextblk - 1) :
    MetaOK as ds S' p.1 (icas ++ p.2.toList) := by
  unfold metadataLastblkWrite metadataStateWrite at hp
  split_ifs at hp
  rw [← Option.some.inj hp]
  have hstoring := storing_callbackState_of_pending_nil MD hpend
  refine MetaOK.write ⟨hS'n.trans h.nextblk, hS'l, h.icas, h.stored_le, h.storing_le,
    h.storing_below, ?_, h.storing_committed, h.nextblk ▸ hc, ?_⟩
  · show LastBelowNext (S.nextblk - 1) MD.latest.nextblk
    rw [h.nextblk]
    exact lastBelowNext_sub_one _
  · intro hw hcb
    rw [hstoring hw] at hcb
    cases hcb

end MetaOK

/-! ## The invariant -/

/-- The stage of the APPEND in progress, told by the callback waiting: its `nextblk` is being
written; its PUTs are in flight, one for each block not counted down, every block in flight or
done; or its `lastblk` is being written, every block done. -/
inductive Stage (MD : Metadata StateCallback) (puts done : List UInt64) (C : AppendCookie) : Prop
  | nextblk : MD.pending = [.putNextblk] → puts = [] → C.nblksLeft = C.nblks.toUInt64 →
      Stage MD puts done C
  | puts : MD.pending = [] → puts.length = C.nblksLeft.toNat →
      (∀ b ∈ callbackAppendPutNextblk C, b ∈ puts ∨ b ∈ done) → Stage MD puts done C
  | lastblk : MD.pending = [.putLastblk] → puts = [] → C.nblksLeft = 0 →
      (∀ b ∈ callbackAppendPutNextblk C, b ∈ done) → Stage MD puts done C

/-- The APPEND in progress is the last one accepted; the `nextblk` it leaves is its end, with no
wrap; the PUTs of the APPENDs before it are all below its first block; and it is at a stage. -/
structure AppendPhase (W : AWorld) (S : State) (MD : Metadata StateCallback) (C : AppendCookie) :
    Prop where
  last : W.appends.getLast? = some (C.nextblkOld, C.nblks)
  nextblk : S.nextblk.toNat = C.nextblkOld.toNat + C.nblks.toNat
  others : ∀ p ∈ W.putLog, p.app ≠ W.appends.length - 1 → p.blk < C.nextblkOld
  stage : Stage MD W.puts W.done C

/-- With no APPEND in progress no callback waits and no PUT is in flight. -/
def Phase (W : AWorld) (P : Proc) : Prop :=
  match P.append with
  | none => P.MD.pending = [] ∧ W.puts = []
  | some C => AppendPhase W P.S P.MD C

/-- What the running process keeps. -/
structure ProcOK (W : AWorld) (P : Proc) : Prop where
  metadata : MetaOK W.appends W.done P.S P.MD W.icas
  below : ∀ p ∈ W.putLog, p.blk < P.S.nextblk
  phase : Phase W P

/-- What holds whatever process runs: every PUT was issued below the table's `nextblk` of the
time, which has not decreased since; each belongs to an APPEND accepted, and no block to two;
the item and what a dead process's ICAS would store have a committed `lastblk` below their
`nextblk`; what the table performed does not exceed its `nextblk`; and the APPENDs answered had
all their PUTs completed. -/
structure AWorld.Safe (W : AWorld) : Prop where
  putLog_stored : ∀ p ∈ W.putLog, p.blk < p.stored
  putLog_item : ∀ p ∈ W.putLog, p.blk < W.item.nextblk
  putLog_app_lt : ∀ p ∈ W.putLog, p.app < W.appends.length
  putLog_app : ∀ p ∈ W.putLog, ∀ q ∈ W.putLog, p.blk = q.blk → p.app = q.app
  item_below : LastBelowNext W.item.lastblk W.item.nextblk
  item_committed : Committed W.appends W.done W.item.lastblk
  acked : ∀ r ∈ W.acked, r.new.nextblk ≤ W.item.nextblk
  orphanIcas : ∀ r ∈ W.orphanIcas, IcasOK W.appends W.done r
  answered : ∀ k ∈ W.answered, ∃ a, W.appends[k]? = some a ∧ ∀ b ∈ appendBlocks a, b ∈ W.done

/-- The invariant of the system. -/
structure AWorld.Inv (W : AWorld) : Prop extends W.Safe where
  idle : W.proc = none → W.icas = [] ∧ W.puts = []
  proc : ∀ P, W.proc = some P → ProcOK W P

/-- The stage depends on the metadata only through the callbacks waiting. -/
theorem Stage.congr {MD MD' : Metadata StateCallback} {puts done : List UInt64}
    {C : AppendCookie} (h : Stage MD puts done C) (hpend : MD'.pending = MD.pending) :
    Stage MD' puts done C := by
  cases h with
  | nextblk h₁ h₂ h₃ => exact .nextblk (hpend ▸ h₁) h₂ h₃
  | puts h₁ h₂ h₃ => exact .puts (hpend ▸ h₁) h₂ h₃
  | lastblk h₁ h₂ h₃ h₄ => exact .lastblk (hpend ▸ h₁) h₂ h₃ h₄

theorem Stage.mono {MD : Metadata StateCallback} {puts done done' : List UInt64}
    {C : AppendCookie} (h : Stage MD puts done C) (hds : ∀ b ∈ done, b ∈ done') :
    Stage MD puts done' C := by
  cases h with
  | nextblk h₁ h₂ h₃ => exact .nextblk h₁ h₂ h₃
  | puts h₁ h₂ h₃ => exact .puts h₁ h₂ fun b hb => (h₃ b hb).imp id (hds b)
  | lastblk h₁ h₂ h₃ h₄ => exact .lastblk h₁ h₂ h₃ fun b hb => hds b (h₄ b hb)

namespace AWorld

variable {W W' : AWorld} {P P' : Proc}

/-- The world's part reads only the ghosts, the item and the dead processes' ICAS. -/
theorem Safe.congr (hS : W.Safe) (hlog : W'.putLog = W.putLog) (hitem : W'.item = W.item)
    (happ : W'.appends = W.appends) (hdone : W'.done = W.done) (hacked : W'.acked = W.acked)
    (horph : W'.orphanIcas = W.orphanIcas) (hans : W'.answered = W.answered) : W'.Safe := by
  obtain ⟨h₁, h₂, h₃, h₄, h₅, h₆, h₇, h₈, h₉⟩ := hS
  rw [← hlog, ← hitem, ← happ, ← hdone, ← hacked, ← horph, ← hans] at *
  exact ⟨h₁, h₂, h₃, h₄, h₅, h₆, h₇, h₈, h₉⟩

/-- More completed PUTs keep the world's part. -/
theorem Safe.mono_done (hS : W.Safe) {done' : List UInt64} (hds : ∀ b ∈ W.done, b ∈ done') :
    ({ W with done := done' } : AWorld).Safe where
  putLog_stored := hS.putLog_stored
  putLog_item := hS.putLog_item
  putLog_app_lt := hS.putLog_app_lt
  putLog_app := hS.putLog_app
  item_below := hS.item_below
  item_committed := hS.item_committed.mono (fun _ ha => ha) hds
  acked := hS.acked
  orphanIcas r hr := by
    obtain ⟨h₁, h₂, h₃⟩ := hS.orphanIcas r hr
    exact ⟨h₁, h₂, h₃.mono (fun _ ha => ha) hds⟩
  answered k hk := by
    obtain ⟨a, ha, hb⟩ := hS.answered k hk
    exact ⟨a, ha, fun b hb' => hds b (hb b hb')⟩

end AWorld

theorem phase_none {W : AWorld} {P : Proc} (h : P.append = none) :
    Phase W P ↔ P.MD.pending = [] ∧ W.puts = [] := by
  unfold Phase; rw [h]

theorem phase_some {W : AWorld} {P : Proc} {C : AppendCookie} (h : P.append = some C) :
    Phase W P ↔ AppendPhase W P.S P.MD C := by
  unfold Phase; rw [h]

/-- The phase reads the callbacks waiting, the process's PUTs in flight and the ghosts of the
APPENDs, of the completed and of the issued PUTs. -/
theorem Phase.congr {W W' : AWorld} {P P' : Proc} (h : Phase W P) (hputs : W'.puts = W.puts)
    (hdone : W'.done = W.done) (happ : W'.appends = W.appends) (hlog : W'.putLog = W.putLog)
    (hA : P'.append = P.append) (hS : P'.S = P.S) (hpend : P'.MD.pending = P.MD.pending) :
    Phase W' P' := by
  cases hc : P.append with
  | none =>
    obtain ⟨h₁, h₂⟩ := (phase_none hc).mp h
    exact (phase_none (hA.trans hc)).mpr ⟨hpend.trans h₁, hputs.trans h₂⟩
  | some C =>
    obtain ⟨h₁, h₂, h₃, h₄⟩ := (phase_some hc).mp h
    exact (phase_some (hA.trans hc)).mpr
      ⟨happ ▸ h₁, hS ▸ h₂, happ ▸ hlog ▸ h₃, hputs ▸ hdone ▸ h₄.congr hpend⟩

namespace ProcOK

variable {W W' : AWorld} {P : Proc}

/-- The process's part reads the ghosts of the APPENDs, of the completed and of the issued PUTs,
and the process's own requests. -/
theorem congr (h : ProcOK W P) (happ : W'.appends = W.appends) (hdone : W'.done = W.done)
    (hicas : W'.icas = W.icas) (hlog : W'.putLog = W.putLog) (hputs : W'.puts = W.puts) :
    ProcOK W' P := by
  obtain ⟨h₁, h₂, h₃⟩ := h
  exact ⟨by rw [happ, hdone, hicas]; exact h₁, by rw [hlog]; exact h₂,
    h₃.congr hputs hdone happ hlog rfl rfl rfl⟩

/-- More completed PUTs keep the process's part. -/
theorem mono_done (h : ProcOK W P) {done' : List UInt64} (hds : ∀ b ∈ W.done, b ∈ done') :
    ProcOK { W with done := done' } P := by
  obtain ⟨h₁, h₂, h₃⟩ := h
  refine ⟨h₁.mono (fun _ ha => ha) hds, h₂, ?_⟩
  cases hc : P.append with
  | none =>
    rw [phase_none hc] at h₃ ⊢
    exact h₃
  | some C =>
    rw [phase_some hc] at h₃ ⊢
    exact ⟨h₃.last, h₃.nextblk, h₃.others, h₃.stage.mono hds⟩

end ProcOK

/-! ## What the updates keep -/

@[simp] theorem pending_deleterPoke {κ : Type} (v : UInt64) (flush : Bool) (MD : Metadata κ) :
    (deleterPoke v flush MD).1.pending = MD.pending := by
  unfold deleterPoke metadataFlush
  cases flush <;> simp

namespace AWorld

variable (W : AWorld) (f : Metadata StateCallback → Metadata StateCallback × Option Icas)

/-- A step of the metadata changes only the running process and its ICAS in flight. -/
theorem metaStep_eq : W.metaStep f = match W.proc with
    | some P => W.issue { P with MD := (f P.MD).1 } (f P.MD).2
    | none => W := rfl

@[simp] theorem appends_metaStep : (W.metaStep f).appends = W.appends := by
  unfold metaStep; split <;> rfl

@[simp] theorem appends_stateCallback (P : Proc) (c : Option StateCallback) :
    (W.stateCallback P c).appends = W.appends := by
  rcases c with _ | _ | _
  · rfl
  · cases hP : P.append <;> simp [stateCallback, hP]
  · rfl

@[simp] theorem appends_writeDone (P : Proc) (r : Icas) (v : UInt64) (flush : Bool) :
    (W.writeDone P r v flush).appends = W.appends := by
  simp [writeDone]

/-- `callback_append_put_nextblk` with the APPEND in progress PUTs its blocks. -/
theorem stateCallback_putNextblk {P : Proc} {C : AppendCookie} (hC : P.append = some C) :
    W.stateCallback P (some .putNextblk) =
      { W with
        proc := some P
        puts := W.puts ++ callbackAppendPutNextblk C
        putLog := W.putLog ++ (callbackAppendPutNextblk C).map
          fun b => ⟨W.appends.length - 1, b, W.item.nextblk⟩ } := by
  simp [stateCallback, hC]

/-- The invariant from the world's part and the running process's. -/
theorem Inv.of_proc {W : AWorld} {P : Proc} (hS : W.Safe) (hp : W.proc = some P)
    (h : ProcOK W P) : W.Inv where
  toSafe := hS
  idle := by simp [hp]
  proc P' hp' := by
    rw [hp, Option.some.injEq] at hp'
    exact hp' ▸ h

/-- An ICAS of the running process is safe to perform. -/
theorem Inv.icasOK {W : AWorld} (hW : W.Inv) {r : Icas} (hr : r ∈ W.icas) :
    IcasOK W.appends W.done r := by
  cases hp : W.proc with
  | none => simp [(hW.idle hp).1] at hr
  | some P => exact (hW.proc P hp).metadata.icasOK hr

/-- A new APPEND keeps the world's part: the ghosts only grow. -/
theorem Safe.appendAccepted {W : AWorld} (hS : W.Safe) (a : UInt64 × UInt32) :
    ({ W with appends := W.appends ++ [a] } : AWorld).Safe := by
  have has : ∀ x ∈ W.appends, x ∈ W.appends ++ [a] := fun _ hx => List.mem_append_left _ hx
  refine ⟨hS.putLog_stored, hS.putLog_item, fun p hp => ?_, hS.putLog_app, hS.item_below,
    hS.item_committed.mono has fun _ hb => hb, hS.acked, fun r hr => ?_, fun k hk => ?_⟩
  · have := hS.putLog_app_lt p hp
    simp only [List.length_append, List.length_singleton]
    omega
  · obtain ⟨h₁, h₂, h₃⟩ := hS.orphanIcas r hr
    exact ⟨h₁, h₂, h₃.mono has fun _ hb => hb⟩
  · obtain ⟨x, hx, hb⟩ := hS.answered k hk
    have hk : k < W.appends.length := (List.getElem?_eq_some_iff.mp hx).1
    exact ⟨x, by rw [List.getElem?_append_left hk]; exact hx, hb⟩

end AWorld

/-! ## Where an APPEND in progress stands -/

namespace AppendPhase

variable {W : AWorld} {S : State} {MD : Metadata StateCallback} {C : AppendCookie}

/-- The `nextblk` an APPEND leaves is its end. -/
theorem nextblk_eq (h : AppendPhase W S MD C) : S.nextblk = C.nextblkOld + C.nblks.toUInt64 := by
  apply UInt64.toNat_inj.mp
  have hfit : C.nextblkOld.toNat + C.nblks.toNat < 2 ^ 64 := h.nextblk ▸ S.nextblk.toNat_lt
  rw [UInt64.toNat_add, UInt32.toNat_toUInt64, h.nextblk]
  omega

/-- The blocks of the APPEND in progress lie from its first block to the `nextblk` it leaves. -/
theorem blocks_mem (h : AppendPhase W S MD C) {b : UInt64} (hb : b ∈ callbackAppendPutNextblk C) :
    C.nextblkOld ≤ b ∧ b < S.nextblk := by
  have hfit : C.nextblkOld.toNat + C.nblks.toNat < 2 ^ 64 := h.nextblk ▸ S.nextblk.toNat_lt
  obtain ⟨h₁, h₂⟩ := toNat_of_mem_callbackAppendPutNextblk hfit hb
  exact ⟨UInt64.le_iff_toNat_le.mpr h₁, UInt64.lt_iff_toNat_lt.mpr (h.nextblk ▸ h₂)⟩

/-- The APPEND in progress is among those accepted, at the last index. -/
theorem getElem?_last (h : AppendPhase W S MD C) :
    W.appends[W.appends.length - 1]? = some (C.nextblkOld, C.nblks) := by
  rw [← List.getLast?_eq_getElem?]
  exact h.last

theorem length_pos (h : AppendPhase W S MD C) : 0 < W.appends.length := by
  have := h.last
  cases hA : W.appends with
  | nil => simp [hA] at this
  | cons _ _ => simp

/-- The last block of the APPEND in progress is `nextblk - 1`, committed once its PUTs are all
done. -/
theorem committed (h : AppendPhase W S MD C) (hdone : ∀ b ∈ callbackAppendPutNextblk C, b ∈ W.done) :
    Committed W.appends W.done (S.nextblk - 1) := by
  refine .inr ⟨(C.nextblkOld, C.nblks), List.mem_of_getLast? h.last, ?_, hdone⟩
  rw [h.nextblk_eq]
  rfl

end AppendPhase

namespace ProcOK

variable {W : AWorld} {P : Proc}

/-- `callback_append_put_nextblk` waiting means the APPEND in progress is at its `nextblk`
stage. -/
theorem nextblk_stage (h : ProcOK W P) {l : List StateCallback}
    (hpend : P.MD.pending = .putNextblk :: l) :
    ∃ C, P.append = some C ∧ AppendPhase W P.S P.MD C ∧ l = [] ∧ W.puts = [] ∧
      C.nblksLeft = C.nblks.toUInt64 := by
  cases hc : P.append with
  | none =>
    rw [((phase_none hc).mp h.phase).1] at hpend
    cases hpend
  | some C =>
    have hph := (phase_some hc).mp h.phase
    refine ⟨C, rfl, hph, ?_⟩
    cases hph.stage with
    | nextblk h₁ h₂ h₃ =>
      rw [h₁, List.cons.injEq] at hpend
      exact ⟨hpend.2.symm, h₂, h₃⟩
    | puts h₁ _ _ => rw [h₁] at hpend; cases hpend
    | lastblk h₁ _ _ _ => rw [h₁, List.cons.injEq] at hpend; cases hpend.1

/-- `callback_append_put_lastblk` waiting means the APPEND in progress is at its `lastblk`
stage. -/
theorem lastblk_stage (h : ProcOK W P) {l : List StateCallback}
    (hpend : P.MD.pending = .putLastblk :: l) :
    ∃ C, P.append = some C ∧ AppendPhase W P.S P.MD C ∧ l = [] ∧ W.puts = [] ∧
      ∀ b ∈ callbackAppendPutNextblk C, b ∈ W.done := by
  cases hc : P.append with
  | none =>
    rw [((phase_none hc).mp h.phase).1] at hpend
    cases hpend
  | some C =>
    have hph := (phase_some hc).mp h.phase
    refine ⟨C, rfl, hph, ?_⟩
    cases hph.stage with
    | nextblk h₁ _ _ => rw [h₁, List.cons.injEq] at hpend; cases hpend.1
    | puts h₁ _ _ => rw [h₁] at hpend; cases hpend
    | lastblk h₁ h₂ _ h₄ =>
      rw [h₁, List.cons.injEq] at hpend
      exact ⟨hpend.2.symm, h₂, h₄⟩

/-- A PUT in flight means the APPEND in progress is at its PUT stage. -/
theorem puts_stage (h : ProcOK W P) {b : UInt64} (hb : b ∈ W.puts) :
    ∃ C, P.append = some C ∧ AppendPhase W P.S P.MD C ∧ P.MD.pending = [] ∧
      W.puts.length = C.nblksLeft.toNat ∧
      ∀ x ∈ callbackAppendPutNextblk C, x ∈ W.puts ∨ x ∈ W.done := by
  cases hc : P.append with
  | none =>
    rw [((phase_none hc).mp h.phase).2] at hb
    cases hb
  | some C =>
    have hph := (phase_some hc).mp h.phase
    refine ⟨C, rfl, hph, ?_⟩
    cases hph.stage with
    | nextblk _ h₂ _ => rw [h₂] at hb; cases hb
    | puts h₁ h₂ h₃ => exact ⟨h₁, h₂, h₃⟩
    | lastblk _ h₂ _ _ => rw [h₂] at hb; cases hb

/-- The ICAS in flight that is answered is that of the write in progress. -/
theorem icas_answered (h : ProcOK W P) {r : Icas} (hr : r ∈ W.icas) :
    P.MD.writeInprogress = true ∧
      r = ⟨P.MD.stored.encode P.MD.processId, P.MD.storing.encode P.MD.processId⟩ := by
  have hicas := h.metadata.icas
  split_ifs at hicas with hw
  · rw [hicas, List.mem_singleton] at hr
    exact ⟨hw, hr⟩
  · rw [hicas] at hr
    cases hr

end ProcOK

/-! ## Every step -/

namespace AWorld

section Steps

variable {W : AWorld} {P : Proc}

/-- A step of the running process's metadata keeps the invariant when it keeps the metadata's
part and the callbacks waiting. -/
theorem metaStep_inv (hW : W.Inv)
    {f : Metadata StateCallback → Metadata StateCallback × Option Icas}
    (hf : ∀ {S MD icas}, MetaOK W.appends W.done S MD icas →
      MetaOK W.appends W.done S (f MD).1 (icas ++ (f MD).2.toList))
    (hpend : ∀ MD, (f MD).1.pending = MD.pending) : (W.metaStep f).Inv := by
  rw [metaStep_eq]
  cases hp : W.proc with
  | none => exact hW
  | some P =>
    have h := hW.proc P hp
    -- the APPEND in progress and the callbacks waiting are those before
    exact .of_proc (hW.toSafe.congr rfl rfl rfl rfl rfl rfl rfl) rfl
      ⟨hf h.metadata, h.below, h.phase.congr rfl rfl rfl rfl rfl rfl (hpend _)⟩

/-- The deleter's poke keeps the invariant. -/
theorem deleter_inv (hW : W.Inv) (v : UInt64) (flush : Bool) :
    (W.metaStep (deleterPoke v flush)).Inv :=
  metaStep_inv hW (fun hM => hM.deleterPoke v flush) (pending_deleterPoke v flush)

section Answer

variable {r : Icas}

/-- An answer with no state callback keeps the invariant. -/
theorem noCallback_inv (hW : W.Inv) (hp : W.proc = some P) (hr : r ∈ W.icas)
    (hcb : P.MD.storing.callbackState = none) :
    ({ W with icas := W.icas.erase r }.stateCallback { P with MD := callbackWritemetadata P.MD }
      none).Inv := by
  have h := hW.proc P hp
  have hw := (h.icas_answered hr).1
  -- the callbacks waiting are those before
  have hpend : (callbackWritemetadata P.MD).pending = P.MD.pending := by
    rw [pending_callbackWritemetadata P.MD hw, hcb]
    rfl
  exact .of_proc (hW.toSafe.congr rfl rfl rfl rfl rfl rfl rfl) rfl
    ⟨h.metadata.callbackWrite hr, h.below, h.phase.congr rfl rfl rfl rfl rfl rfl hpend⟩

/-- `callback_append_put_nextblk` keeps the invariant: each block PUT is below the `nextblk` the
table performed, above the PUTs of every APPEND before, and in flight. -/
theorem putNextblk_inv (hW : W.Inv) (hp : W.proc = some P) (hr : r ∈ W.icas) (hack : r ∈ W.acked)
    (hcb : P.MD.storing.callbackState = some .putNextblk) :
    ({ W with icas := W.icas.erase r }.stateCallback { P with MD := callbackWritemetadata P.MD }
      (some .putNextblk)).Inv := by
  have h := hW.proc P hp
  obtain ⟨hw, hr'⟩ := h.icas_answered hr
  have hpend := pending_callbackWritemetadata P.MD hw
  rw [hcb, Option.toList_some, List.singleton_append] at hpend
  obtain ⟨C, hC, hph, hpend₁, hputs, hleft⟩ := h.nextblk_stage hpend
  rw [stateCallback_putNextblk (P := { P with MD := callbackWritemetadata P.MD }) _ hC]
  -- the table stored the `nextblk` this APPEND leaves
  have hstored : P.S.nextblk ≤ W.item.nextblk := by
    have hle := hW.acked r hack
    rw [hr'] at hle
    rw [← h.metadata.storing_nextblk hw hcb]
    exact hle
  have hblk : ∀ b ∈ callbackAppendPutNextblk C, C.nextblkOld ≤ b ∧ b < W.item.nextblk :=
    fun b hb => ⟨(hph.blocks_mem hb).1, UInt64.lt_of_lt_of_le (hph.blocks_mem hb).2 hstored⟩
  have hidx : W.appends.length - 1 < W.appends.length := by
    have := hph.length_pos
    omega
  -- the new records are those of the last APPEND
  have hnew : ∀ p ∈ (callbackAppendPutNextblk C).map
      (fun b => (⟨W.appends.length - 1, b, W.item.nextblk⟩ : PutRecord)),
      p.app = W.appends.length - 1 ∧ C.nextblkOld ≤ p.blk ∧ p.blk < W.item.nextblk ∧
        p.stored = W.item.nextblk ∧ p.blk < P.S.nextblk := by
    intro p hp'
    obtain ⟨b, hb, rfl⟩ := List.mem_map.mp hp'
    exact ⟨rfl, (hblk b hb).1, (hblk b hb).2, rfl, (hph.blocks_mem hb).2⟩
  have hS : ({ W with
      icas := W.icas.erase r
      proc := some { P with MD := callbackWritemetadata P.MD }
      puts := W.puts ++ callbackAppendPutNextblk C
      putLog := W.putLog ++ (callbackAppendPutNextblk C).map
        fun b => ⟨W.appends.length - 1, b, W.item.nextblk⟩ } : AWorld).Safe := by
    refine ⟨fun p hp' => ?_, fun p hp' => ?_, fun p hp' => ?_, fun p hp' q hq hpq => ?_,
      hW.item_below, hW.item_committed, hW.acked, hW.orphanIcas, hW.answered⟩
    · rcases List.mem_append.mp hp' with hp' | hp'
      · exact hW.putLog_stored p hp'
      · obtain ⟨-, -, h₁, h₂, -⟩ := hnew p hp'
        exact h₂ ▸ h₁
    · rcases List.mem_append.mp hp' with hp' | hp'
      · exact hW.putLog_item p hp'
      · exact (hnew p hp').2.2.1
    · rcases List.mem_append.mp hp' with hp' | hp'
      · exact hW.putLog_app_lt p hp'
      · exact (hnew p hp').1 ▸ hidx
    · -- a PUT of an APPEND before is below the first block of this one
      have hsep : ∀ p ∈ W.putLog, ∀ q ∈ (callbackAppendPutNextblk C).map
          (fun b => (⟨W.appends.length - 1, b, W.item.nextblk⟩ : PutRecord)),
          p.blk = q.blk → p.app = q.app := by
        intro p hp q hq hpq
        rw [(hnew q hq).1]
        by_contra hne
        exact UInt64.not_lt.mpr (hnew q hq).2.1 (hpq ▸ hph.others p hp hne)
      rcases List.mem_append.mp hp' with hp' | hp' <;> rcases List.mem_append.mp hq with hq | hq
      · exact hW.putLog_app p hp' q hq hpq
      · exact hsep p hp' q hq hpq
      · exact (hsep q hq p hp' hpq.symm).symm
      · rw [(hnew p hp').1, (hnew q hq).1]
  refine .of_proc hS rfl ⟨h.metadata.callbackWrite hr, fun p hp' => ?_, ?_⟩
  · rcases List.mem_append.mp hp' with hp' | hp'
    · exact h.below p hp'
    · exact (hnew p hp').2.2.2.2
  · refine (phase_some (P := { P with MD := callbackWritemetadata P.MD }) hC).mpr
      ⟨hph.last, hph.nextblk, fun p hp' hne => ?_, ?_⟩
    · rcases List.mem_append.mp hp' with hp' | hp'
      · exact hph.others p hp' hne
      · exact absurd (hnew p hp').1 hne
    · -- every block is now in flight, one PUT for each block not counted down
      refine .puts hpend₁ ?_ fun b hb => ?_
      · show (W.puts ++ callbackAppendPutNextblk C).length = C.nblksLeft.toNat
        rw [hputs, List.nil_append, length_callbackAppendPutNextblk, hleft,
          UInt32.toNat_toUInt64]
      · exact .inl (List.mem_append_right _ hb)

/-- `callback_append_put_lastblk` keeps the invariant: the APPEND answered had all its PUTs
completed, and no APPEND is in progress any more. -/
theorem putLastblk_inv (hW : W.Inv) (hp : W.proc = some P) (hr : r ∈ W.icas)
    (hcb : P.MD.storing.callbackState = some .putLastblk) :
    ({ W with icas := W.icas.erase r }.stateCallback { P with MD := callbackWritemetadata P.MD }
      (some .putLastblk)).Inv := by
  have h := hW.proc P hp
  have hw := (h.icas_answered hr).1
  have hpend := pending_callbackWritemetadata P.MD hw
  rw [hcb, Option.toList_some, List.singleton_append] at hpend
  obtain ⟨C, -, hph, hpend₁, hputs, hdone⟩ := h.lastblk_stage hpend
  have hS : ({ W with
      icas := W.icas.erase r
      proc := some { P with
        MD := callbackWritemetadata P.MD
        S := (callbackAppendPutLastblk P.S).1
        append := none }
      answered := W.answered ++ [W.appends.length - 1] } : AWorld).Safe := by
    refine ⟨hW.putLog_stored, hW.putLog_item, hW.putLog_app_lt, hW.putLog_app, hW.item_below,
      hW.item_committed, hW.acked, hW.orphanIcas, fun k hk => ?_⟩
    rcases List.mem_append.mp hk with hk | hk
    · exact hW.answered k hk
    · rw [List.mem_singleton.mp hk]
      exact ⟨_, hph.getElem?_last, hdone⟩
  exact .of_proc hS rfl ⟨h.metadata.callbackWrite hr |>.congr_state rfl rfl, h.below,
    (phase_none rfl).mpr ⟨hpend₁, hputs⟩⟩

/-- The state callback of the write answered keeps the invariant. -/
theorem stateCallback_inv (hW : W.Inv) (hp : W.proc = some P) (hr : r ∈ W.icas)
    (hack : r ∈ W.acked) :
    ({ W with icas := W.icas.erase r }.stateCallback { P with MD := callbackWritemetadata P.MD }
      (callbackWritemetadata P.MD).stored.callbackState).Inv := by
  rw [callbackWritemetadata_stored]
  cases hcb : P.MD.storing.callbackState with
  | none => exact noCallback_inv hW hp hr hcb
  | some c =>
    cases c with
    | putNextblk => exact putNextblk_inv hW hp hr hack hcb
    | putLastblk => exact putLastblk_inv hW hp hr hcb

/-- `callback_writemetadata` keeps the invariant: the state callback, the deleter's poke and
the write asked for meanwhile each keep it. -/
theorem writeDone_inv (hW : W.Inv) (hp : W.proc = some P) (hr : r ∈ W.icas) (hack : r ∈ W.acked)
    (v : UInt64) (flush : Bool) : (W.writeDone P r v flush).Inv := by
  have h₁ := stateCallback_inv hW hp hr hack
  have h₂ := deleter_inv h₁ v flush
  exact metaStep_inv h₂ (fun hM => hM.writeIfWanted) pending_writeIfWanted

end Answer

/-- The table performing an ICAS keeps the invariant: it does not lower `nextblk`, and what it
stores is committed with `lastblk` below `nextblk`. -/
theorem perform_inv (hW : W.Inv) {r : Icas} (hr : r ∈ W.icas ++ W.orphanIcas) {I : Item}
    (hI : r.perform W.item = some I) : ({ W with item := I, acked := W.acked ++ [r] } : AWorld).Inv := by
  obtain ⟨hmono, hbelow, hcomm⟩ : IcasOK W.appends W.done r := by
    rcases List.mem_append.mp hr with hr | hr
    · exact hW.icasOK hr
    · exact hW.orphanIcas r hr
  have hle := Icas.nextblk_le_of_perform hmono hI
  have hI' := Icas.eq_new_of_perform hI
  refine ⟨⟨hW.putLog_stored, fun p hp => UInt64.lt_of_lt_of_le (hW.putLog_item p hp) hle,
      hW.putLog_app_lt, hW.putLog_app, hI' ▸ hbelow, hI' ▸ hcomm, fun r' hr' => ?_,
      hW.orphanIcas, hW.answered⟩, hW.idle,
    fun P hp => (hW.proc P hp).congr rfl rfl rfl rfl rfl⟩
  rcases List.mem_append.mp hr' with hr' | hr'
  · exact UInt64.le_trans (hW.acked r' hr') hle
  · rw [List.mem_singleton.mp hr', hI']
    exact UInt64.le_refl _

/-- Accepting an APPEND that fits keeps the invariant: it starts at `nextblk`, above every PUT,
and its write of the new `nextblk` waits for `callback_append_put_nextblk`. -/
theorem append_inv (hW : W.Inv) (hp : W.proc = some P) {R : AppendRequest}
    (hok : gotrequestAppendOk P.S P.append.isSome R = true) {S : State} {C : AppendCookie}
    {MD : Metadata StateCallback} {r : Option Icas} (hsa : stateAppend P.S P.MD R = some (S, C, MD, r))
    (hfit : R.blkno.toNat + R.nblks.toNat < 2 ^ 64) :
    ({ W.issue ⟨S, MD, some C⟩ r with appends := W.appends ++ [(R.blkno, R.nblks)] }).Inv := by
  have h := hW.proc P hp
  obtain ⟨hblkno, hip⟩ := gotrequestAppendOk_iff.mp hok
  have hnone : P.append = none := Option.not_isSome_iff_eq_none.mp (by simp [hip])
  obtain ⟨hpend, hputs⟩ := (phase_none hnone).mp h.phase
  obtain ⟨rfl, rfl, hw⟩ := stateAppend_eq_some hsa
  -- the new `nextblk` does not wrap
  have hsum : (P.S.nextblk + R.nblks.toUInt64).toNat = P.S.nextblk.toNat + R.nblks.toNat := by
    rw [UInt64.toNat_add, UInt32.toNat_toUInt64, ← hblkno]
    omega
  have hle : P.S.nextblk ≤ P.S.nextblk + R.nblks.toUInt64 :=
    UInt64.le_iff_toNat_le.mpr (by omega)
  have has : ∀ a ∈ W.appends, a ∈ W.appends ++ [(R.blkno, R.nblks)] :=
    fun _ ha => List.mem_append_left _ ha
  refine .of_proc ((hW.toSafe.appendAccepted _).congr rfl rfl rfl rfl rfl rfl rfl) rfl
    ⟨(h.metadata.mono has fun _ hb => hb).nextblkWrite hpend hle hw rfl rfl,
      fun p hp => UInt64.lt_of_lt_of_le (h.below p hp) hle, (phase_some rfl).mpr ⟨?_, hsum, ?_, ?_⟩⟩
  · simp [hblkno]
  · exact fun p hp _ => h.below p hp
  · refine .nextblk ?_ hputs rfl
    rw [pending_metadataStateWrite P.MD hw, hpend]
    rfl

/-- A PUT completing keeps the invariant: the block is done, and after the last block of the
APPEND its `lastblk` is committed and written. -/
theorem putDone_inv (hW : W.Inv) (hp : W.proc = some P) {b : UInt64} (hb : b ∈ W.puts)
    {C : AppendCookie} (hC : P.append = some C) {S : State} {C' : AppendCookie}
    {MD : Metadata StateCallback} {r : Option Icas}
    (hcb : callbackAppendPutBlks P.S C P.MD = some (S, C', MD, r)) :
    ({ W.issue ⟨S, MD, some C'⟩ r with puts := W.puts.erase b, done := W.done ++ [b] }).Inv := by
  have h := hW.proc P hp
  obtain ⟨C₀, hC₀, hph, hpend, hlen, hblocks⟩ := h.puts_stage hb
  rw [hC, Option.some.injEq] at hC₀
  subst hC₀
  obtain ⟨hleft, rfl, hcase⟩ := callbackAppendPutBlks_eq_some hcb
  have hds : ∀ x ∈ W.done, x ∈ W.done ++ [b] := fun _ hx => List.mem_append_left _ hx
  have hS : ({ W.issue ⟨S, MD, some { C with nblksLeft := C.nblksLeft - 1 }⟩ r with
      puts := W.puts.erase b, done := W.done ++ [b] }).Safe :=
    (hW.toSafe.mono_done hds).congr rfl rfl rfl rfl rfl rfl rfl
  -- one PUT fewer in flight, one block fewer to count down
  have hlen' : (W.puts.erase b).length = (C.nblksLeft - 1).toNat := by
    have hpos : 1 ≤ C.nblksLeft := UInt64.le_iff_toNat_le.mpr (by
      have := List.length_pos_of_mem hb
      simp only [UInt64.toNat_one]
      omega)
    rw [List.length_erase_of_mem hb, hlen, UInt64.toNat_sub_of_le _ _ hpos, UInt64.toNat_one]
  have hblocks' : ∀ x ∈ callbackAppendPutNextblk C, x ∈ W.puts.erase b ∨ x ∈ W.done ++ [b] := by
    intro x hx
    rcases hblocks x hx with hx | hx
    · by_cases hxb : x = b
      · exact .inr (by rw [hxb]; exact List.mem_append_right _ (List.mem_singleton_self b))
      · exact .inl ((List.mem_erase_of_ne hxb).mpr hx)
    · exact .inr (hds x hx)
  have hph' : AppendPhase { W with done := W.done ++ [b] } P.S P.MD C :=
    ⟨hph.last, hph.nextblk, hph.others, hph.stage.mono hds⟩
  rcases hcase with ⟨hz, rfl, hwr⟩ | ⟨-, rfl, rfl, rfl⟩
  · -- the last block: every block is done, and `lastblk` is written
    have hnil : W.puts.erase b = [] := List.eq_nil_of_length_eq_zero (by rw [hlen', hz]; rfl)
    have hdone : ∀ x ∈ callbackAppendPutNextblk C, x ∈ W.done ++ [b] := by
      intro x hx
      rcases hblocks' x hx with hx | hx
      · rw [hnil] at hx; cases hx
      · exact hx
    refine .of_proc hS rfl ⟨(h.metadata.mono (fun _ ha => ha) hds).lastblkWrite hpend
      (hph'.committed hdone) hwr rfl rfl, h.below,
      (phase_some (C := { C with nblksLeft := C.nblksLeft - 1 }) rfl).mpr
      ⟨hph.last, hph.nextblk, hph.others, .lastblk ?_ hnil hz hdone⟩⟩
    rw [pending_metadataStateWrite P.MD hwr, hpend]
    rfl
  · have hM := h.metadata.mono (fun _ ha => ha) hds
    rw [← List.append_nil W.icas] at hM
    exact .of_proc hS rfl ⟨hM, h.below,
      (phase_some (C := { C with nblksLeft := C.nblksLeft - 1 }) rfl).mpr
      ⟨hph.last, hph.nextblk, hph.others, .puts hpend hlen' hblocks'⟩⟩

/-- The death of the process keeps the invariant: its ICAS are safe to perform. -/
theorem crash_inv (hW : W.Inv) :
    ({ W with
        proc := none, icas := [], puts := [], orphanIcas := W.orphanIcas ++ W.icas,
        orphanPuts := W.orphanPuts ++ W.puts } : AWorld).Inv where
  toSafe := ⟨hW.putLog_stored, hW.putLog_item, hW.putLog_app_lt, hW.putLog_app, hW.item_below,
    hW.item_committed, hW.acked, fun r hr => by
      rcases List.mem_append.mp hr with hr | hr
      · exact hW.orphanIcas r hr
      · exact hW.icasOK hr, hW.answered⟩
  idle _ := ⟨rfl, rfl⟩
  proc _ hp := by cases hp

/-- A PUT of a dead process completing keeps the invariant. -/
theorem orphanPutDone_inv (hW : W.Inv) (b : UInt64) :
    ({ W with orphanPuts := W.orphanPuts.erase b, done := W.done ++ [b] } : AWorld).Inv :=
  have hds : ∀ x ∈ W.done, x ∈ W.done ++ [b] := fun _ hx => List.mem_append_left _ hx
  { toSafe := (hW.toSafe.mono_done hds).congr rfl rfl rfl rfl rfl rfl rfl
    idle := hW.idle
    proc := fun P hp => ((hW.proc P hp).mono_done hds).congr rfl rfl rfl rfl rfl }

/-- A new process keeps the invariant: it starts from the stored values, above every PUT, with
nothing in flight. -/
theorem start_inv (hW : W.Inv) (hnone : W.proc = none) (pid : ℕ) :
    ({ W with item := (claimIcas W.item pid).new, proc := some (startProc W.item pid) } :
      AWorld).Inv := by
  obtain ⟨hicas, hputs⟩ := hW.idle hnone
  refine .of_proc ⟨hW.putLog_stored, hW.putLog_item, hW.putLog_app_lt, hW.putLog_app,
    hW.item_below, hW.item_committed, hW.acked, hW.orphanIcas, hW.answered⟩ rfl
    ⟨⟨rfl, rfl, hicas, UInt64.le_refl _, UInt64.le_refl _, hW.item_below, hW.item_below,
      hW.item_committed, hW.item_committed, fun hw => by cases hw⟩, hW.putLog_item,
      (phase_none rfl).mpr ⟨rfl, hputs⟩⟩

/-- A table lbs-dynamodb-init created satisfies the invariant. -/
theorem aInit_inv (h : aInit W) : W.Inv := by
  obtain ⟨hproc, hitem, hicas, horph, hputs, -, happ, hlog, hdone, hacked, hans⟩ := h
  refine ⟨⟨?_, ?_, ?_, ?_, ?_, ?_, ?_, ?_, ?_⟩, fun _ => ⟨hicas, hputs⟩, ?_⟩ <;>
    simp [hproc, hitem, horph, happ, hlog, hacked, hans, createmetadata, LastBelowNext, Committed]

end Steps

end AWorld

/-- Every step keeps the invariant, provided the APPEND it may accept fits. -/
theorem AStep.inv {W W' : AWorld} (hW : W.Inv) (h : AStep W W') (hfit : W'.Fits) : W'.Inv := by
  cases h with
  | append hp hok _ hsa =>
    exact AWorld.append_inv hW hp hok hsa
      (hfit _ (List.mem_append_right _ (List.mem_singleton_self _)))
  | perform hr hI => exact AWorld.perform_inv hW hr hI
  | writeDone hp hr hack => exact AWorld.writeDone_inv hW hp hr hack _ _
  | putDone hp hb hC hcb => exact AWorld.putDone_inv hW hp hb hC hcb
  | deleter _ => exact AWorld.deleter_inv hW _ _
  | crash => exact AWorld.crash_inv hW
  | orphanPutDone _ => exact AWorld.orphanPutDone_inv hW _
  | start hnone => exact AWorld.start_inv hW hnone _

/-- No step forgets an APPEND accepted, so a run all of whose APPENDs fit passed only through
such states. -/
theorem AStep.fits {W W' : AWorld} (h : AStep W W') (hfit : W'.Fits) : W.Fits := by
  intro a ha
  apply hfit a
  cases h with
  | append => exact List.mem_append_left _ ha
  | writeDone => simpa using ha
  | deleter => simpa using ha
  | _ => exact ha

theorem AWorld.reachable_inv {W : AWorld} (h : Reachable aInit AStep W) (hfit : W.Fits) :
    W.Inv :=
  h.invariant_of_anti (fun _ _ hs hf => hs.fits hf) (fun _ h₀ _ => AWorld.aInit_inv h₀)
    (fun _ _ hI hs hf => AStep.inv hI hs hf) hfit

/-! ## Writes -/

end Kivaloo.LbsDynamodb
