import Mathlib
import Kivaloo.Lib.ListRel
import Kivaloo.Lib.Transition
import Kivaloo.Lbs.Codec
import Kivaloo.Lbs.Storage

/-!
# The request dispatcher of lbs (lbs/dispatch.c, dispatch_request.c, dispatch_response.c)

lbs serves one connection at a time.  The dispatcher reads requests from it and answers PARAMS,
PARAMS2 and FREE at once; GETs wait in a queue for one of `nreaders` reader threads, an APPEND
goes to the writer thread, and a FREE also goes to the deleter thread if it is idle.  A thread
that has done its work wakes the dispatcher (`workdone`), which answers the request and marks
the thread available again.  `npending` counts the responses owed; the connection is alive while
a request is awaited or a response owed, and only then does lbs accept the next one.

The threads' bookkeeping holds in every run (`Threads`): the stack of idle readers lists each
reader without work once, `writer_busy` and `deleter_busy` say whether those threads hold work,
and each thread holds work of its own kind.  `npending` never falls below the responses owed
(`DispatchState.owed`), but `gotrequest` counts a request before it looks at it, and the requests
on which it drops the connection (PARAMS or PARAMS2 during a write, an APPEND with the wrong
block length) stay counted for good: `npending` then exceeds what is owed in every later state,
and lbs never accepts another connection (`reachable_npendingLeak`).
-/

namespace Kivaloo.Lbs

open Kivaloo.Lib

/-! ## The model -/

/-- The work tuple of a `struct workctl`: `op` 0 reads a block, 1 writes blocks, 2 deletes the
blocks before `blkno`; each with the ID of the request it answers. -/
inductive Op
  | read (reqID blkno : UInt64)
  | write (reqID blkno nblks : UInt64)
  | delete (reqID blkno : UInt64)
deriving DecidableEq, Repr

/-- `haswork` and `workdone` of a worker thread: no work, work assigned and not yet done, or work
done, with the blocks it read (`ctl->nblks`), that `worker_getdone` has not collected. -/
inductive Thread
  | idle
  | busy (op : Op)
  | done (op : Op) (nblks : ℕ)
deriving DecidableEq, Repr

/-- A response packet: `proto_lbs_response_*` with its fields (the data of a GET left out). -/
inductive Response
  | params (ID : UInt64) (blklen : ℕ) (blkno : UInt64)
  | params2 (ID : UInt64) (blklen : ℕ) (blkno lastblk : UInt64)
  | get (ID : UInt64) (status blklen : ℕ)
  | append (ID : UInt64) (status : ℕ) (blkno : UInt64)
  | free (ID : UInt64)
deriving DecidableEq, Repr

/-- The fields of `struct dispatch_state`, with the work of each thread: readers are threads `0`
to `nreaders - 1`, the writer is thread `nreaders` and the deleter thread `nreaders + 1`.
`readersIdle` is the stack `readers_idle[0 .. nreaders_idle)` with its top first, `readCookie`
says whether a request is awaited, `readq` holds the queued reads (ID and block) and `sent` the
responses written.  `accepting` is left out: the accept is one event, and between events it is
0. -/
structure DispatchState where
  nreaders : ℕ
  workers : List Thread
  writerBusy : Bool
  deleterBusy : Bool
  readersIdle : List ℕ
  blocklen : ℕ
  sstate : StorageState
  readCookie : Bool
  npending : ℕ
  readq : List (UInt64 × UInt64)
  sent : List Response
deriving DecidableEq, Repr

/-- `(uint64_t)(-1)`: the error value of `storage_nextblock`, the block number of a refused
APPEND, and the last block of PARAMS2 when no block has been written. -/
def blknoNone : UInt64 := -1

/-- `dispatch_init(S, blocklen, nreaders)`: every thread idle, every reader on the stack
(`readers_idle[i] = i`), and no connection yet. -/
def dispatchInit (S : StorageState) (blocklen nreaders : ℕ) : DispatchState :=
  ⟨nreaders, List.replicate (nreaders + 2) .idle, false, false, (List.range nreaders).reverse,
    blocklen, S, false, 0, [], []⟩

/-- `worker_assign(workers[i], op, ...)`; `none` where the assertion that the thread has no work
fails. -/
def workerAssign (workers : List Thread) (i : ℕ) (op : Op) : Option (List Thread) :=
  if workers[i]? = some .idle then some (workers.set i (.busy op)) else none

/-- `dropconnection(D)`: stop waiting for requests, and drop the queued reads with the responses
they were owed. -/
def dropconnection (D : DispatchState) : DispatchState :=
  { D with readCookie := false, npending := D.npending - D.readq.length, readq := [] }

/-- The loop of `dispatch_request_pokereadq`: while a reader is idle and a read is queued, the
reader on top of the stack takes the first read. -/
def pokereadqLoop : List ℕ → List (UInt64 × UInt64) → List Thread →
    Option (List ℕ × List (UInt64 × UInt64) × List Thread)
  | [], readq, workers => some ([], readq, workers)
  | r :: idle, [], workers => some (r :: idle, [], workers)
  | r :: idle, (reqID, blkno) :: readq, workers =>
    match workerAssign workers r (.read reqID blkno) with
    | none => none
    | some workers => pokereadqLoop idle readq workers

/-- `dispatch_request_pokereadq(D)`. -/
def pokereadq (D : DispatchState) : Option DispatchState :=
  (pokereadqLoop D.readersIdle D.readq D.workers).map fun r =>
    { D with readersIdle := r.1, readq := r.2.1, workers := r.2.2 }

/-- The answer of PARAMS, PARAMS2 and a finished APPEND: `storage_nextblock`, a failure on its
error value, and otherwise a response built from it, one fewer owed. -/
def respondNextblock (D : DispatchState) (resp : UInt64 → Response) : Option DispatchState :=
  let blkno := storageNextblock D.sstate
  if blkno = blknoNone then none
  else some { D with npending := D.npending - 1, sent := D.sent ++ [resp blkno] }

/-- `dispatch_request_params(D, R)`. -/
def dispatchRequestParams (D : DispatchState) (ID : UInt64) : Option DispatchState :=
  respondNextblock D fun blkno => .params ID D.blocklen blkno

/-- `dispatch_request_params2(D, R)`: the last block written is the one before `blkno`, or
`(uint64_t)(-1)` where `blkno` is 0. -/
def dispatchRequestParams2 (D : DispatchState) (ID : UInt64) : Option DispatchState :=
  respondNextblock D fun blkno =>
    .params2 ID D.blocklen blkno (if blkno ≠ 0 then blkno - 1 else blknoNone)

/-- `dispatch_request_get(D, R)`: the read joins the queue, which is then poked. -/
def dispatchRequestGet (D : DispatchState) (ID blkno : UInt64) : Option DispatchState :=
  pokereadq { D with readq := D.readq ++ [(ID, blkno)] }

/-- `dispatch_request_append(D, R)`: the writer takes the blocks if they start at
`storage_nextblock` and no write is in progress; otherwise the response has status 1. -/
def dispatchRequestAppend (D : DispatchState) (ID blkno nblks : UInt64) : Option DispatchState :=
  let next := storageNextblock D.sstate
  if next = blknoNone then none
  else if blkno ≠ next ∨ D.writerBusy = true then
    some { D with npending := D.npending - 1, sent := D.sent ++ [.append ID 1 blknoNone] }
  else
    (workerAssign D.workers D.nreaders (.write ID blkno nblks)).map fun workers =>
      { D with writerBusy := true, workers := workers }

/-- `dispatch_request_free(D, R)`: the deleter takes the work if it is idle, and the ACK goes
out either way. -/
def dispatchRequestFree (D : DispatchState) (ID blkno : UInt64) : Option DispatchState :=
  let assigned : Option DispatchState :=
    if D.deleterBusy = false then
      (workerAssign D.workers (D.nreaders + 1) (.delete ID blkno)).map fun workers =>
        { D with deleterBusy := true, workers := workers }
    else some D
  assigned.map fun D => { D with npending := D.npending - 1, sent := D.sent ++ [.free ID] }

/-- One turn of the loop of `gotrequest`, on a request read: a response is owed, and the request
is handled.  PARAMS and PARAMS2 while a write is in progress, and an APPEND whose block length
is not lbs's, drop the connection instead. -/
def gotrequest (D : DispatchState) (ID : UInt64) (R : ProtoLbsRequest) : Option DispatchState :=
  let D := { D with npending := D.npending + 1 }
  match R with
  | .params => if D.writerBusy = true then some (dropconnection D) else dispatchRequestParams D ID
  | .params2 =>
    if D.writerBusy = true then some (dropconnection D) else dispatchRequestParams2 D ID
  | .get blkno => dispatchRequestGet D ID (UInt64.ofNat blkno)
  | .append nblks blklen blkno _ =>
    if blklen ≠ D.blocklen then some (dropconnection D)
    else dispatchRequestAppend D ID (UInt64.ofNat blkno) (UInt64.ofNat nblks)
  | .free blkno => dispatchRequestFree D ID (UInt64.ofNat blkno)

/-- What worker thread `i` does with its work (`workthread`): a read finds the block or not, a
write appends, a delete frees; `none` where the thread has no work to do, or where the storage
layer fails, on which the thread exits the process. -/
def workerRun (D : DispatchState) (i : ℕ) : Option DispatchState :=
  match D.workers[i]? with
  | some (.busy op) =>
    match op with
    | .read _ blkno =>
      (storageRead D.sstate blkno).map fun r =>
        { D with workers := D.workers.set i (.done op (if r.isSome then 1 else 0)) }
    | .write _ blkno nblks =>
      (storageWrite D.sstate blkno nblks).map fun S =>
        { D with sstate := S, workers := D.workers.set i (.done op nblks.toNat) }
    | .delete _ blkno =>
      some { D with sstate := storageDelete D.sstate blkno, workers := D.workers.set i (.done op 0) }
  | _ => none

/-- `dispatch_response_send(D, thread)` on the work collected from the thread: a read is answered
with status 0 if it found the block and 1 if not, a write with the next block number, and a
delete not at all. -/
def dispatchResponseSend (D : DispatchState) : Op → ℕ → Option DispatchState
  | .read reqID _, nblks =>
    some { D with npending := D.npending - 1
                  sent := D.sent ++ [.get reqID (if nblks = 1 then 0 else 1) D.blocklen] }
  | .write reqID _ _, _ => respondNextblock D fun blkno => .append reqID 0 blkno
  | .delete _ _, _ => some D

/-- Thread `i` marked available in `workdone`: the deleter and the writer are no longer busy, and
a reader goes back on the stack. -/
def markAvailable (D : DispatchState) (i : ℕ) : DispatchState :=
  if i = D.nreaders + 1 then { D with deleterBusy := false }
  else if i = D.nreaders then { D with writerBusy := false }
  else { D with readersIdle := i :: D.readersIdle }

/-- `workdone(D)` for thread `i`: the work is collected and answered, the thread is marked
available, and a reader that became idle takes queued reads. -/
def workdone (D : DispatchState) (i : ℕ) : Option DispatchState :=
  match D.workers[i]? with
  | some (.done op nblks) => do
    let D ← dispatchResponseSend { D with workers := D.workers.set i .idle } op nblks
    let D := markAvailable D i
    if i < D.nreaders then pokereadq D else some D
  | _ => none

/-- `dispatch_alive(D)` between events. -/
def dispatchAlive (D : DispatchState) : Bool := D.readCookie || decide (0 < D.npending)

/-- `dispatch_close` and then `dispatch_accept` with `callback_accept`, once the connection is
dead; `none` while it is alive, when lbs keeps running the event loop instead. -/
def dispatchAccept (D : DispatchState) : Option DispatchState :=
  if dispatchAlive D = true then none
  else some { D with readCookie := true, npending := 0, readq := [] }

/-- The events of lbs: a request read, the connection failing, a worker doing its work, the
dispatcher collecting finished work, and the next connection accepted.  Each is a callback run
to completion; a failure, on which lbs exits, ends the run. -/
inductive DStep : DispatchState → DispatchState → Prop
  | request {D D' : DispatchState} (ID : UInt64) (R : ProtoLbsRequest) :
      D.readCookie = true → gotrequest D ID R = some D' → DStep D D'
  | drop {D : DispatchState} : DStep D (dropconnection D)
  | run {D D' : DispatchState} (i : ℕ) : workerRun D i = some D' → DStep D D'
  | workdone {D D' : DispatchState} (i : ℕ) : workdone D i = some D' → DStep D D'
  | accept {D D' : DispatchState} : dispatchAccept D = some D' → DStep D D'

/-- lbs started on a storage directory that `storage_init` accepts. -/
def lbsInit (blocklen : ℕ) (offMax : UInt64) (files : List StorageFile) (nreaders : ℕ)
    (D : DispatchState) : Prop :=
  ∃ S, storageInit blocklen offMax files = some S ∧ D = dispatchInit S blocklen nreaders

/-! ## What each handler does -/

section Handlers

variable {D D' : DispatchState}

theorem workerAssign_eq_some {ws ws' : List Thread} {i : ℕ} {op : Op} :
    workerAssign ws i op = some ws' ↔ ws[i]? = some .idle ∧ ws' = ws.set i (.busy op) := by
  unfold workerAssign
  split_ifs with h
  · simp [h, eq_comm]
  · simp [h]

theorem respondNextblock_eq_some {resp : UInt64 → Response} :
    respondNextblock D resp = some D' ↔
      D.sstate.nextblk ≠ blknoNone ∧
        D' = { D with npending := D.npending - 1, sent := D.sent ++ [resp D.sstate.nextblk] } := by
  by_cases h : D.sstate.nextblk = blknoNone
  · simp [respondNextblock, storageNextblock, h]
  · simp [respondNextblock, storageNextblock, h, eq_comm]

/-- An APPEND goes to the writer only if it starts at `storage_nextblock` and the writer is
idle; otherwise it is answered with status 1, the threads and the store untouched. -/
theorem dispatchRequestAppend_eq_some {ID blkno nblks : UInt64} :
    dispatchRequestAppend D ID blkno nblks = some D' ↔ D.sstate.nextblk ≠ blknoNone ∧
      ((blkno = D.sstate.nextblk ∧ D.writerBusy = false ∧ D.workers[D.nreaders]? = some .idle ∧
          D' = { D with writerBusy := true
                        workers := D.workers.set D.nreaders (.busy (.write ID blkno nblks)) }) ∨
        ((blkno ≠ D.sstate.nextblk ∨ D.writerBusy = true) ∧
          D' = { D with npending := D.npending - 1
                        sent := D.sent ++ [.append ID 1 blknoNone] })) := by
  unfold dispatchRequestAppend storageNextblock
  by_cases hnone : D.sstate.nextblk = blknoNone
  · simp [hnone]
  by_cases hrefuse : blkno ≠ D.sstate.nextblk ∨ D.writerBusy = true
  · simp only [if_neg hnone, if_pos hrefuse, Option.some.injEq]
    constructor
    · rintro rfl
      exact ⟨hnone, .inr ⟨hrefuse, rfl⟩⟩
    · rintro ⟨-, ⟨hb, hw, -⟩ | ⟨-, rfl⟩⟩
      · simp [hb, hw] at hrefuse
      · rfl
  · simp only [if_neg hnone, if_neg hrefuse, Option.map_eq_some_iff, workerAssign_eq_some]
    rw [not_or, not_not, Bool.not_eq_true] at hrefuse
    constructor
    · rintro ⟨ws, ⟨hidle, rfl⟩, rfl⟩
      exact ⟨hnone, .inl ⟨hrefuse.1, hrefuse.2, hidle, rfl⟩⟩
    · rintro ⟨-, ⟨-, -, hidle, rfl⟩ | ⟨hr, -⟩⟩
      · exact ⟨_, ⟨hidle, rfl⟩, rfl⟩
      · simp [hrefuse.1, hrefuse.2] at hr

/-- A FREE is acknowledged at once, and goes to the deleter only if it is idle. -/
theorem dispatchRequestFree_eq_some {ID blkno : UInt64} :
    dispatchRequestFree D ID blkno = some D' ↔
      (D.deleterBusy = false ∧ D.workers[D.nreaders + 1]? = some .idle ∧
          D' = { D with deleterBusy := true
                        workers := D.workers.set (D.nreaders + 1) (.busy (.delete ID blkno))
                        npending := D.npending - 1
                        sent := D.sent ++ [.free ID] }) ∨
        (D.deleterBusy = true ∧
          D' = { D with npending := D.npending - 1, sent := D.sent ++ [.free ID] }) := by
  by_cases hbusy : D.deleterBusy = false
  · simp only [dispatchRequestFree, if_pos hbusy, Option.map_map, Option.map_eq_some_iff,
      workerAssign_eq_some]
    constructor
    · rintro ⟨ws, ⟨hidle, rfl⟩, rfl⟩
      exact .inl ⟨hbusy, hidle, rfl⟩
    · rintro (⟨-, hidle, rfl⟩ | ⟨h, -⟩)
      · exact ⟨_, ⟨hidle, rfl⟩, rfl⟩
      · simp [h] at hbusy
  · rw [Bool.not_eq_false] at hbusy
    simp [dispatchRequestFree, hbusy, eq_comm]

/-- A worker does the work it holds: the thread's work is done, and only the store changes
besides. -/
theorem workerRun_eq_some {i : ℕ} (h : workerRun D i = some D') :
    ∃ op k S, D.workers[i]? = some (.busy op) ∧
      D' = { D with sstate := S, workers := D.workers.set i (.done op k) } := by
  unfold workerRun at h
  split at h
  · rename_i op hop
    cases op with
    | read reqID blkno =>
      obtain ⟨r, -, rfl⟩ := Option.map_eq_some_iff.mp h
      exact ⟨_, _, D.sstate, hop, rfl⟩
    | write reqID blkno nblks =>
      obtain ⟨S, -, rfl⟩ := Option.map_eq_some_iff.mp h
      exact ⟨_, _, S, hop, rfl⟩
    | delete reqID blkno =>
      cases h
      exact ⟨_, _, _, hop, rfl⟩
  · cases h

/-- The work collected from a thread: a read or a write is answered, one fewer owed, and a
delete is not. -/
theorem dispatchResponseSend_eq_some {op : Op} {k : ℕ} (h : dispatchResponseSend D op k = some D') :
    ∃ r : List Response, D' = { D with npending := D.npending - r.length, sent := D.sent ++ r } ∧
      r.length = (match op with | .delete .. => 0 | _ => 1) := by
  cases op with
  | read reqID blkno =>
    cases h
    exact ⟨[_], rfl, rfl⟩
  | write reqID blkno nblks =>
    obtain ⟨-, rfl⟩ := respondNextblock_eq_some.mp h
    exact ⟨[_], rfl, rfl⟩
  | delete reqID blkno =>
    cases h
    exact ⟨[], by simp, rfl⟩

theorem workdone_eq_some {i : ℕ} (h : workdone D i = some D') :
    ∃ op k D₁, D.workers[i]? = some (.done op k) ∧
      dispatchResponseSend { D with workers := D.workers.set i .idle } op k = some D₁ ∧
      (if i < D₁.nreaders then pokereadq (markAvailable D₁ i) = some D'
        else D' = markAvailable D₁ i) := by
  unfold workdone at h
  split at h
  · rename_i op k hop
    obtain ⟨D₁, h₁, h₂⟩ := Option.bind_eq_some_iff.mp h
    refine ⟨op, k, D₁, hop, h₁, ?_⟩
    dsimp only at h₂
    have hn : (markAvailable D₁ i).nreaders = D₁.nreaders := by
      unfold markAvailable
      split_ifs <;> rfl
    rw [hn] at h₂
    split_ifs at h₂ ⊢
    · exact h₂
    · exact (Option.some.inj h₂).symm
  · cases h

end Handlers

end Kivaloo.Lbs
