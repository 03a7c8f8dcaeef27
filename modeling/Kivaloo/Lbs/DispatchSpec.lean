import Mathlib
import Kivaloo.Lbs.Dispatch

/-!
# The bookkeeping of the lbs dispatcher over every run

The dispatcher keeps three records of its threads: the stack of idle readers, `writer_busy` and
`deleter_busy`; and one count, `npending`, of the responses it owes.  The main results are

* `Threads`, kept by every event (`DStep.inv`): the stack lists each reader without work once,
  the two flags say whether the writer and the deleter hold work, and each thread holds work of
  its own kind only, so at most one FREE is being worked on;
* `DispatchState.owed ≤ npending` (`DStep.inv`): a response is never sent, nor a queued read
  dropped, with `npending` at 0;
* `DStep.inv` again: what `npending` counts beyond the responses owed never shrinks
  (`reachable_excess`).  A request on which `gotrequest` drops the connection was counted and is
  never answered, so after one, lbs stays on the dead connection for good
  (`reachable_npendingLeak`);
* `reachable_nextblkWraps`: the block numbers of the store grow only while their `uint64_t` sum
  does not wrap, and an APPEND that wraps it is accepted and answered.
-/

namespace Kivaloo.Lbs

open Kivaloo.Lib

/-! ## Threads and the responses owed -/

/-- The work a thread holds. -/
def Thread.op? : Thread → Option Op
  | .idle => none
  | .busy op => some op
  | .done op _ => some op

/-- Whether the request of a work waits for its response: a read's and a write's do, a delete's
was answered when it was assigned. -/
def Op.owes : Op → Bool
  | .delete .. => false
  | _ => true

/-- A thread whose work is owed a response. -/
def Thread.owes (t : Thread) : Bool := t.op?.any Op.owes

/-- The kind of work thread `i` may hold: reads for readers, writes for the writer, deletes for
the deleter. -/
def Op.Fits (nreaders i : ℕ) : Op → Prop
  | .read .. => i < nreaders
  | .write .. => i = nreaders
  | .delete .. => i = nreaders + 1

/-- The responses the dispatcher owes: one for each queued read, and one for each read or write
a thread holds. -/
def DispatchState.owed (D : DispatchState) : ℕ := D.readq.length + D.workers.countP Thread.owes

/-- The bookkeeping of the threads: the stack of idle readers lists each reader without work
once, `writer_busy` and `deleter_busy` say whether those threads hold work, and each thread holds
work of its own kind. -/
structure Threads (nreaders : ℕ) (workers : List Thread) (readersIdle : List ℕ)
    (writerBusy deleterBusy : Bool) : Prop where
  length : workers.length = nreaders + 2
  nodup : readersIdle.Nodup
  mem_idle : ∀ i, i ∈ readersIdle ↔ i < nreaders ∧ workers[i]? = some .idle
  fits : ∀ i (t : Thread) (op : Op), workers[i]? = some t → t.op? = some op → op.Fits nreaders i
  writer : writerBusy = true ↔ workers[nreaders]? ≠ some .idle
  deleter : deleterBusy = true ↔ workers[nreaders + 1]? ≠ some .idle

/-- The invariant of the dispatcher: the threads' bookkeeping, and no fewer responses counted
than owed. -/
structure DispatchState.Inv (D : DispatchState) : Prop where
  threads : Threads D.nreaders D.workers D.readersIdle D.writerBusy D.deleterBusy
  owed_le : D.owed ≤ D.npending

@[simp] theorem owes_idle : Thread.idle.owes = false := rfl
@[simp] theorem owes_busy (op : Op) : (Thread.busy op).owes = op.owes := rfl
@[simp] theorem owes_done (op : Op) (k : ℕ) : (Thread.done op k).owes = op.owes := rfl

/-! ## Changing one thread -/

section Threads

variable {n : ℕ} {ws : List Thread} {idle idle' : List ℕ} {wb db wb' db' : Bool}

/-- One thread changes its work, and the stack and the flags follow: a reader is on the new
stack exactly when it is idle, and a flag says whether its thread holds work. -/
theorem Threads.set (h : Threads n ws idle wb db) {i : ℕ} {t t' : Thread} (ht : ws[i]? = some t)
    (hfits : ∀ op, t'.op? = some op → op.Fits n i) (hnodup : idle'.Nodup)
    (hmem : ∀ j, j ∈ idle' ↔ if i = j then i < n ∧ t' = .idle else j ∈ idle)
    (hwb : wb' = true ↔ if i = n then t' ≠ .idle else wb = true)
    (hdb : db' = true ↔ if i = n + 1 then t' ≠ .idle else db = true) :
    Threads n (ws.set i t') idle' wb' db' := by
  have hi : i < ws.length := (List.getElem?_eq_some_iff.mp ht).1
  -- the thread at `j` after the change
  have hget : ∀ j, (ws.set i t')[j]? = if i = j then some t' else ws[j]? := by
    intro j
    rw [List.getElem?_set, if_pos hi]
  refine ⟨by rw [List.length_set, h.length], hnodup, fun j => ?_, fun j u op hu hop => ?_, ?_, ?_⟩
  · rw [hmem j, hget j]
    split_ifs with hj
    · subst hj
      simp
    · exact h.mem_idle j
  · rw [hget j] at hu
    split_ifs at hu with hj
    · subst hj
      cases hu
      exact hfits op hop
    · exact h.fits j u op hu hop
  · rw [hwb, hget n]
    split_ifs with hn
    · simp
    · exact h.writer
  · rw [hdb, hget (n + 1)]
    split_ifs with hn
    · simp
    · exact h.deleter

/-- The count of threads owed a response after one thread changes. -/
theorem countP_owes_set {i : ℕ} {t : Thread} (ht : ws[i]? = some t) (t' : Thread) :
    (ws.set i t').countP Thread.owes + t.owes.toNat = ws.countP Thread.owes + t'.owes.toNat := by
  obtain ⟨hi, rfl⟩ := List.getElem?_eq_some_iff.mp ht
  have hcount := countP_set_add hi t' (p := Thread.owes)
  cases ho : ws[i].owes <;> cases ho' : t'.owes <;> simp only [ho, ho'] at hcount <;>
    simpa using hcount

/-- A thread that holds work is not on the stack of idle readers. -/
theorem Threads.not_mem_idle (h : Threads n ws idle wb db) {i : ℕ} {t : Thread}
    (ht : ws[i]? = some t) (hne : t ≠ .idle) : i ∉ idle := fun hi =>
  hne (Option.some.inj (ht.symm.trans ((h.mem_idle i).mp hi).2))

/-- A reader on top of the stack takes a read. -/
theorem Threads.pop (h : Threads n (ws) (r :: idle) wb db) (op : Op) (hop : op.Fits n r) :
    Threads n (ws.set r (.busy op)) idle wb db := by
  obtain ⟨hr, hidle⟩ := (h.mem_idle r).mp List.mem_cons_self
  have hnd := List.nodup_cons.mp h.nodup
  refine h.set hidle (fun op' hop' => ?_) hnd.2 (fun j => ?_) ?_ ?_
  · cases hop'
    exact hop
  · by_cases hj : r = j
    · subst hj
      simp [hnd.1]
    · simp [hj, Ne.symm hj]
  · simp [Nat.ne_of_lt hr]
  · simp [show r ≠ n + 1 by omega]

/-- An idle thread that is not a reader takes work, and its flag is set. -/
theorem Threads.assign (h : Threads n ws idle wb db) {i : ℕ} (hi : n ≤ i)
    (hidle : ws[i]? = some .idle) (op : Op) (hop : op.Fits n i)
    (hwb : wb' = true ↔ i = n ∨ wb = true) (hdb : db' = true ↔ i = n + 1 ∨ db = true) :
    Threads n (ws.set i (.busy op)) idle wb' db' := by
  refine h.set hidle (fun op' hop' => ?_) h.nodup (fun j => ?_) ?_ ?_
  · cases hop'
    exact hop
  · by_cases hj : i = j
    · subst hj
      simp only [if_true]
      constructor
      · intro hmem
        exact absurd ((h.mem_idle i).mp hmem).1 (by omega)
      · rintro ⟨hlt, -⟩
        omega
    · simp [hj]
  · rw [hwb]
    by_cases hn : i = n <;> simp [hn]
  · rw [hdb]
    by_cases hn : i = n + 1 <;> simp [hn]

/-- A thread does its work: it still holds it, and nothing else changes. -/
theorem Threads.finish (h : Threads n ws idle wb db) {i : ℕ} {op : Op}
    (ht : ws[i]? = some (.busy op)) (k : ℕ) : Threads n (ws.set i (.done op k)) idle wb db := by
  have hnotin := h.not_mem_idle ht (by simp)
  refine h.set ht (fun op' hop' => ?_) h.nodup (fun j => ?_) ?_ ?_
  · cases hop'
    exact h.fits i _ op ht rfl
  · by_cases hj : i = j
    · subst hj
      simp [hnotin]
    · simp [hj]
  · by_cases hn : i = n
    · subst hn
      simpa [ht] using h.writer
    · simp [hn]
  · by_cases hn : i = n + 1
    · subst hn
      simpa [ht] using h.deleter
    · simp [hn]

/-- The work of a thread is collected: the thread is idle again, a reader goes back on the stack,
and the writer's or the deleter's flag is cleared. -/
theorem Threads.release (h : Threads n ws idle wb db) {i : ℕ} {op : Op} {k : ℕ}
    (ht : ws[i]? = some (.done op k)) :
    Threads n (ws.set i .idle) (if i = n + 1 ∨ i = n then idle else i :: idle)
      (if i = n then false else wb) (if i = n + 1 then false else db) := by
  have hnotin := h.not_mem_idle ht (by simp)
  -- a thread that is neither the writer nor the deleter holds a read, so it is a reader
  have hreader : ¬(i = n + 1 ∨ i = n) → i < n := by
    intro hne
    have hfit := h.fits i _ op ht rfl
    cases op <;> simp only [Op.Fits] at hfit <;> omega
  refine h.set ht (by simp [Thread.op?]) ?_ (fun j => ?_) ?_ ?_
  · split_ifs
    · exact h.nodup
    · exact List.nodup_cons.mpr ⟨hnotin, h.nodup⟩
  · by_cases hj : i = j
    · subst hj
      rw [if_pos rfl]
      split_ifs with hn
      · constructor
        · exact fun hi => absurd hi hnotin
        · rintro ⟨hlt, -⟩
          omega
      · simpa using hreader hn
    · rw [if_neg hj]
      split_ifs <;> simp [Ne.symm hj]
  · by_cases hn : i = n <;> simp [hn]
  · by_cases hn : i = n + 1 <;> simp [hn]

end Threads

/-! ## The loop of `pokereadq` -/

/-- Readers take queued reads: the bookkeeping holds, and the reads taken are owed by the
readers instead of the queue. -/
theorem pokereadqLoop_spec {n : ℕ} {wb db : Bool} :
    ∀ {idle : List ℕ} (rq : List (UInt64 × UInt64)) {ws : List Thread},
      Threads n ws idle wb db →
      ∃ idle' rq' ws', pokereadqLoop idle rq ws = some (idle', rq', ws') ∧
        Threads n ws' idle' wb db ∧
        rq'.length + ws'.countP Thread.owes = rq.length + ws.countP Thread.owes
  | [], _, _, h => ⟨_, _, _, rfl, h, rfl⟩
  | _ :: _, [], _, h => ⟨_, _, _, rfl, h, rfl⟩
  | r :: idle, (reqID, blkno) :: rq, ws, h => by
    obtain ⟨hr, hidle⟩ := (h.mem_idle r).mp List.mem_cons_self
    have h' := h.pop (.read reqID blkno) hr
    obtain ⟨idle', rq', ws', hloop, hT, hcount⟩ := pokereadqLoop_spec rq h'
    refine ⟨idle', rq', ws', ?_, hT, ?_⟩
    · simp only [pokereadqLoop, workerAssign, if_pos hidle, hloop]
    · -- the read leaves the queue and joins the reader
      have hset := countP_owes_set hidle (.busy (.read reqID blkno))
      simp only [owes_idle, owes_busy, Op.owes, Bool.toNat_false, Bool.toNat_true] at hset
      simp only [List.length_cons]
      omega

namespace DispatchState

variable {D D' : DispatchState}

theorem Inv.pokereadq (hD : D.Inv) :
    ∃ D', pokereadq D = some D' ∧ D'.Inv ∧ D'.npending = D.npending ∧ D'.owed = D.owed := by
  obtain ⟨idle', rq', ws', hloop, hT, hcount⟩ := pokereadqLoop_spec D.readq hD.threads
  refine ⟨{ D with readersIdle := idle', readq := rq', workers := ws' }, ?_, ⟨hT, ?_⟩, rfl, hcount⟩
  · rw [Lbs.pokereadq, hloop]
    rfl
  · exact hcount.trans_le hD.owed_le

/-! ## The events keep the invariant -/

theorem Inv.incr (hD : D.Inv) : ({ D with npending := D.npending + 1 } : DispatchState).Inv :=
  ⟨hD.threads, Nat.le_succ_of_le hD.owed_le⟩

/-- Dropping the connection drops the queued reads with the responses they were owed. -/
theorem Inv.dropconnection (hD : D.Inv) :
    (dropconnection D).Inv ∧
      D.npending + (dropconnection D).owed = (dropconnection D).npending + D.owed := by
  have hle := hD.owed_le
  simp only [owed] at hle
  refine ⟨⟨hD.threads, ?_⟩, ?_⟩ <;> simp only [Lbs.dropconnection, owed, List.length_nil] <;> omega

/-- A response sent at once, one fewer owed. -/
theorem Inv.respondNextblock (hD : D.Inv) (hlt : D.owed < D.npending) {resp : UInt64 → Response}
    (h : Lbs.respondNextblock D resp = some D') :
    D'.Inv ∧ D'.npending + 1 = D.npending ∧ D'.owed = D.owed := by
  obtain ⟨-, rfl⟩ := respondNextblock_eq_some.mp h
  exact ⟨⟨hD.threads, by show D.owed ≤ D.npending - 1; omega⟩, by show D.npending - 1 + 1 = _; omega,
    rfl⟩

theorem Inv.append (hD : D.Inv) (hlt : D.owed < D.npending) {ID blkno nblks : UInt64}
    (h : dispatchRequestAppend D ID blkno nblks = some D') :
    D'.Inv ∧ D.npending + D'.owed = D'.npending + 1 + D.owed := by
  rcases (dispatchRequestAppend_eq_some.mp h).2 with ⟨-, hidle_w, hidle, rfl⟩ | ⟨-, rfl⟩
  · -- the writer takes the blocks, and owes their response
    have hT : Threads D.nreaders (D.workers.set D.nreaders (.busy (.write ID blkno nblks)))
        D.readersIdle true D.deleterBusy :=
      hD.threads.assign (le_refl _) hidle _ rfl (by simp) (by simp)
    have hset := countP_owes_set hidle (.busy (.write ID blkno nblks))
    simp only [owes_idle, owes_busy, Op.owes, Bool.toNat_false, Bool.toNat_true] at hset
    refine ⟨⟨hT, ?_⟩, ?_⟩ <;> simp only [owed] at hlt ⊢ <;> omega
  · refine ⟨⟨hD.threads, ?_⟩, ?_⟩ <;> simp only [owed] at hlt ⊢ <;> omega

theorem Inv.free (hD : D.Inv) (hlt : D.owed < D.npending) {ID blkno : UInt64}
    (h : dispatchRequestFree D ID blkno = some D') :
    D'.Inv ∧ D'.npending + 1 = D.npending ∧ D'.owed = D.owed := by
  rcases dispatchRequestFree_eq_some.mp h with ⟨-, hidle, rfl⟩ | ⟨-, rfl⟩
  · -- the deleter takes the work, which owes nothing
    have hT : Threads D.nreaders (D.workers.set (D.nreaders + 1) (.busy (.delete ID blkno)))
        D.readersIdle D.writerBusy true :=
      hD.threads.assign (by omega) hidle _ rfl (by simp) (by simp)
    have hset := countP_owes_set hidle (.busy (.delete ID blkno))
    simp only [owes_idle, owes_busy, Op.owes, Bool.toNat_false] at hset
    refine ⟨⟨hT, ?_⟩, ?_, ?_⟩ <;> simp only [owed] at hlt ⊢ <;> omega
  · refine ⟨⟨hD.threads, ?_⟩, ?_, rfl⟩ <;> simp only [owed] at hlt ⊢ <;> omega

/-- A request read: the invariant holds after it, and what `npending` counts beyond the responses
owed grows by one where the connection is dropped and stays the same otherwise. -/
theorem Inv.gotrequest (hD : D.Inv) {ID : UInt64} {R : ProtoLbsRequest}
    (h : Lbs.gotrequest D ID R = some D') :
    D'.Inv ∧ D.npending + D'.owed ≤ D'.npending + D.owed := by
  have hD₁ := hD.incr
  have hlt : D.owed < D.npending + 1 := Nat.lt_succ_of_le hD.owed_le
  have e₁ : ({ D with npending := D.npending + 1 } : DispatchState).owed = D.owed := rfl
  -- the connection dropped, with the request counted
  have hdrop := hD₁.dropconnection
  have hexcess : D.npending + (Lbs.dropconnection { D with npending := D.npending + 1 }).owed ≤
      (Lbs.dropconnection { D with npending := D.npending + 1 }).npending + D.owed := by
    have h₂ := hdrop.2
    rw [e₁] at h₂
    simp only at h₂
    omega
  cases R with
  | params =>
    simp only [Lbs.gotrequest] at h
    split_ifs at h
    · obtain rfl := Option.some.inj h
      exact ⟨hdrop.1, hexcess⟩
    · obtain ⟨hD', hn, ho⟩ := hD₁.respondNextblock hlt h
      exact ⟨hD', by rw [ho, e₁]; simp only at hn; omega⟩
  | params2 =>
    simp only [Lbs.gotrequest] at h
    split_ifs at h
    · obtain rfl := Option.some.inj h
      exact ⟨hdrop.1, hexcess⟩
    · obtain ⟨hD', hn, ho⟩ := hD₁.respondNextblock hlt h
      exact ⟨hD', by rw [ho, e₁]; simp only at hn; omega⟩
  | get blkno =>
    -- the read joins the queue, and readers take what they can
    have hq : DispatchState.Inv
        { D with npending := D.npending + 1, readq := D.readq ++ [(ID, UInt64.ofNat blkno)] } :=
      ⟨hD.threads, by simp only [owed, List.length_append, List.length_singleton] at hlt ⊢; omega⟩
    obtain ⟨D'', hpoke, hD', hn, ho⟩ := hq.pokereadq
    obtain rfl := Option.some.inj (h.symm.trans hpoke)
    refine ⟨hD', ?_⟩
    rw [hn, ho]
    simp only [owed, List.length_append, List.length_singleton]
    omega
  | append nblks blklen blkno buf =>
    simp only [Lbs.gotrequest] at h
    split_ifs at h
    · obtain rfl := Option.some.inj h
      exact ⟨hdrop.1, hexcess⟩
    · obtain ⟨hD', hn⟩ := hD₁.append hlt h
      exact ⟨hD', by rw [e₁] at hn; simp only at hn; omega⟩
  | free blkno =>
    obtain ⟨hD', hn, ho⟩ := hD₁.free hlt h
    exact ⟨hD', by rw [ho, e₁]; simp only at hn; omega⟩

theorem Inv.workerRun (hD : D.Inv) {i : ℕ} (h : Lbs.workerRun D i = some D') :
    D'.Inv ∧ D'.npending = D.npending ∧ D'.owed = D.owed := by
  obtain ⟨op, k, S, hop, rfl⟩ := workerRun_eq_some h
  have hset := countP_owes_set hop (.done op k)
  simp only [owes_busy, owes_done] at hset
  have ho : ({ D with sstate := S, workers := D.workers.set i (.done op k) } : DispatchState).owed =
      D.owed := by
    simp only [owed]
    omega
  exact ⟨⟨hD.threads.finish hop k, ho ▸ hD.owed_le⟩, rfl, ho⟩

theorem markAvailable_eq (E : DispatchState) (i : ℕ) :
    markAvailable E i = { E with
      readersIdle := if i = E.nreaders + 1 ∨ i = E.nreaders then E.readersIdle
        else i :: E.readersIdle
      writerBusy := if i = E.nreaders then false else E.writerBusy
      deleterBusy := if i = E.nreaders + 1 then false else E.deleterBusy } := by
  unfold markAvailable
  by_cases h₁ : i = E.nreaders + 1
  · simp [h₁]
  · by_cases h₂ : i = E.nreaders
    · simp [h₂]
    · simp [h₁, h₂]

/-- Finished work is collected: its response goes out, one fewer owed, and the thread is
available again. -/
theorem Inv.workdone (hD : D.Inv) {i : ℕ} (h : Lbs.workdone D i = some D') :
    D'.Inv ∧ D.npending + D'.owed = D'.npending + D.owed := by
  obtain ⟨op, k, D₁, hop, hsend, hpoke⟩ := workdone_eq_some h
  obtain ⟨r, rfl, hr⟩ := dispatchResponseSend_eq_some hsend
  have hset := countP_owes_set hop .idle
  simp only [owes_done, owes_idle, Bool.toNat_false, add_zero] at hset
  -- the response sent is the one the thread owed
  have hr' : r.length = op.owes.toNat := by
    rw [hr]
    cases op <;> rfl
  have hle := hD.owed_le
  simp only [owed] at hle
  have hM : (markAvailable { D with workers := D.workers.set i .idle
                                    npending := D.npending - r.length
                                    sent := D.sent ++ r } i).Inv ∧
      D.npending + (markAvailable { D with workers := D.workers.set i .idle
                                           npending := D.npending - r.length
                                           sent := D.sent ++ r } i).owed =
        (markAvailable { D with workers := D.workers.set i .idle
                                npending := D.npending - r.length
                                sent := D.sent ++ r } i).npending + D.owed := by
    rw [markAvailable_eq]
    refine ⟨⟨hD.threads.release hop, ?_⟩, ?_⟩ <;> simp only [owed] <;> omega
  split_ifs at hpoke
  · obtain ⟨D'', hpoke', hD', hn, ho⟩ := hM.1.pokereadq
    obtain rfl := Option.some.inj (hpoke.symm.trans hpoke')
    exact ⟨hD', by rw [hn, ho]; exact hM.2⟩
  · subst hpoke
    exact hM

/-- The next connection is accepted only once nothing is owed. -/
theorem Inv.accept (hD : D.Inv) (h : dispatchAccept D = some D') :
    D'.Inv ∧ D.npending + D'.owed = D'.npending + D.owed := by
  unfold dispatchAccept dispatchAlive at h
  split_ifs at h with halive
  cases h
  simp only [Bool.or_eq_true, decide_eq_true_eq, not_or, Bool.not_eq_true, not_lt,
    Nat.le_zero] at halive
  have hle := hD.owed_le
  simp only [owed] at hle ⊢
  refine ⟨⟨hD.threads, ?_⟩, ?_⟩ <;> simp only [owed, List.length_nil] <;> omega

end DispatchState

/-! ## Every run -/

/-- Every event keeps the invariant, and what `npending` counts beyond the responses owed never
shrinks. -/
theorem DStep.inv {D D' : DispatchState} (hD : D.Inv) (h : DStep D D') :
    D'.Inv ∧ D.npending + D'.owed ≤ D'.npending + D.owed := by
  cases h with
  | request ID R _ h => exact hD.gotrequest h
  | drop => exact ⟨hD.dropconnection.1, hD.dropconnection.2.le⟩
  | run i h =>
    obtain ⟨hD', hn, ho⟩ := hD.workerRun h
    exact ⟨hD', by rw [hn, ho]⟩
  | workdone i h => exact ⟨(hD.workdone h).1, (hD.workdone h).2.le⟩
  | accept h => exact ⟨(hD.accept h).1, (hD.accept h).2.le⟩

theorem dispatchInit_inv (S : StorageState) (blocklen nreaders : ℕ) :
    (dispatchInit S blocklen nreaders).Inv := by
  refine ⟨⟨by simp [dispatchInit], ?_, fun i => ?_, fun i t op ht hop => ?_, ?_, ?_⟩, ?_⟩
  · exact List.nodup_reverse.mpr List.nodup_range
  · simp only [dispatchInit, List.mem_reverse, List.mem_range, List.getElem?_replicate]
    constructor
    · intro hi
      exact ⟨hi, by simp; omega⟩
    · exact fun h => h.1
  · simp only [dispatchInit, List.getElem?_replicate] at ht
    split_ifs at ht
    cases ht
    cases hop
  · simp [dispatchInit]
  · simp [dispatchInit]
  · simp [DispatchState.owed, dispatchInit, List.countP_replicate]

/-- The invariant holds in every state of every run of lbs. -/
theorem reachable_inv {blocklen : ℕ} {offMax : UInt64} {files : List StorageFile} {nreaders : ℕ}
    {D : DispatchState} (h : Reachable (lbsInit blocklen offMax files nreaders) DStep D) :
    D.Inv := by
  refine h.invariant (P := DispatchState.Inv) (fun s hs => ?_) fun _ _ hD hst => (DStep.inv hD hst).1
  obtain ⟨S, -, rfl⟩ := hs
  exact dispatchInit_inv S blocklen nreaders

/-- From a state where `npending` counts more than is owed, it does so in every later state:
`npending` stays positive, the connection stays alive, and no connection is accepted again. -/
theorem reachable_excess {D₀ D : DispatchState} (hD₀ : D₀.Inv) (hlt : D₀.owed < D₀.npending)
    (h : Reachable (· = D₀) DStep D) :
    D.Inv ∧ D.owed < D.npending := by
  induction h with
  | init hs =>
    subst hs
    exact ⟨hD₀, hlt⟩
  | step _ hst ih =>
    obtain ⟨hD', hexcess⟩ := DStep.inv ih.1 hst
    exact ⟨hD', by have := ih.2; omega⟩

theorem dispatchAccept_eq_none_of_owed_lt {D : DispatchState} (h : D.owed < D.npending) :
    dispatchAccept D = none := by
  unfold dispatchAccept dispatchAlive
  rw [if_pos (by simp; omega)]

/-! ## A request dropped stays counted -/

/-- lbs with one reader on an empty directory, after a connection is accepted, an APPEND of block
0 is taken by the writer, a PARAMS is read while the write is in progress (so the connection is
dropped), and the write is done and answered: nothing is owed, but `npending` is 1. -/
def leakState : DispatchState :=
  ⟨1, [.idle, .idle, .idle], false, false, [0], 512,
    ⟨512, 0x7FFFFFFFFFFFFFFF / 512, [⟨0, 1⟩], 0, 1⟩, false, 1, [], [.append 1 0 1]⟩

theorem reachable_leakState :
    Reachable (lbsInit 512 0x7FFFFFFFFFFFFFFF [] 1) DStep leakState := by
  have h₀ : Reachable (lbsInit 512 0x7FFFFFFFFFFFFFFF [] 1) DStep
      (dispatchInit ⟨512, 0x7FFFFFFFFFFFFFFF / 512, [], 0, 0⟩ 512 1) :=
    .init ⟨_, rfl, rfl⟩
  have h₁ := h₀.tail (DStep.accept rfl)
  have h₂ := h₁.tail (DStep.request 1 (.append 1 512 0 (List.replicate 512 0)) rfl rfl)
  have h₃ := h₂.tail (DStep.request 2 .params rfl rfl)
  have h₄ := h₃.tail (DStep.run 1 rfl)
  exact h₄.tail (DStep.workdone 1 rfl)

/-- The dispatcher's bookkeeping of its threads holds in every run, an APPEND is given to the
writer only at `storage_nextblock` with no write in progress (and is otherwise refused with
status 1, the store untouched), and `npending` never falls below the responses owed.  But it does
not equal them: after a PARAMS read during a write, the request is counted and never answered,
and from then on `npending` stays positive and lbs never accepts another connection. -/
theorem reachable_npendingLeak :
    (∀ (blocklen : ℕ) (offMax : UInt64) (files : List StorageFile) (nreaders : ℕ)
        (D : DispatchState), Reachable (lbsInit blocklen offMax files nreaders) DStep D →
      Threads D.nreaders D.workers D.readersIdle D.writerBusy D.deleterBusy ∧
        D.owed ≤ D.npending) ∧
    (∀ (D D' : DispatchState) (ID blkno nblks : UInt64),
      dispatchRequestAppend D ID blkno nblks = some D' →
        D'.sstate = D.sstate ∧
          ((blkno = D.sstate.nextblk ∧ D.writerBusy = false ∧
              D'.workers = D.workers.set D.nreaders (.busy (.write ID blkno nblks))) ∨
            (D'.workers = D.workers ∧ D'.sent = D.sent ++ [.append ID 1 blknoNone]))) ∧
    Reachable (lbsInit 512 0x7FFFFFFFFFFFFFFF [] 1) DStep leakState ∧
      leakState.owed < leakState.npending ∧
      ∀ D, Reachable (· = leakState) DStep D → 0 < D.npending ∧ dispatchAccept D = none := by
  refine ⟨fun _ _ _ _ D hD => ⟨(reachable_inv hD).threads, (reachable_inv hD).owed_le⟩,
    fun D D' ID blkno nblks h => ?_, reachable_leakState, by decide, fun D hD => ?_⟩
  · rcases (dispatchRequestAppend_eq_some.mp h).2 with ⟨hb, hw, -, rfl⟩ | ⟨-, rfl⟩
    · exact ⟨rfl, .inl ⟨hb, hw, rfl⟩⟩
    · exact ⟨rfl, .inr ⟨rfl, rfl⟩⟩
  · -- the excess of the leak state carries over to every later state
    obtain ⟨-, hlt⟩ := reachable_excess (reachable_inv reachable_leakState) (by decide) hD
    exact ⟨by omega, dispatchAccept_eq_none_of_owed_lt hlt⟩

/-! ## Block numbers wrap around -/

/-- lbs with one reader on a directory whose only file, empty, is numbered `2 ^ 64 - 2`, after a
connection is accepted and it answers a PARAMS, an APPEND of two blocks at `2 ^ 64 - 2` (written
and answered), and a PARAMS2. -/
def wrapState : DispatchState :=
  ⟨1, [.idle, .idle, .idle], false, false, [0], 512,
    ⟨512, 0x7FFFFFFFFFFFFFFF / 512, [⟨0xFFFFFFFFFFFFFFFE, 2⟩], 0xFFFFFFFFFFFFFFFE, 0⟩, true, 0, [],
    [.params 1 512 0xFFFFFFFFFFFFFFFE, .append 2 0 0, .params2 3 512 0 blknoNone]⟩

theorem reachable_wrapState :
    Reachable (lbsInit 512 0x7FFFFFFFFFFFFFFF [⟨0xFFFFFFFFFFFFFFFE, 0⟩] 1) DStep wrapState := by
  have h₀ : Reachable (lbsInit 512 0x7FFFFFFFFFFFFFFF [⟨0xFFFFFFFFFFFFFFFE, 0⟩] 1) DStep
      (dispatchInit ⟨512, 0x7FFFFFFFFFFFFFFF / 512, [⟨0xFFFFFFFFFFFFFFFE, 0⟩], 0xFFFFFFFFFFFFFFFE,
        0xFFFFFFFFFFFFFFFE⟩ 512 1) :=
    .init ⟨_, rfl, rfl⟩
  have h₁ := h₀.tail (DStep.accept rfl)
  have h₂ := h₁.tail (DStep.request 1 .params rfl rfl)
  have h₃ := h₂.tail
    (DStep.request 2 (.append 2 512 0xFFFFFFFFFFFFFFFE (List.replicate 1024 0)) rfl rfl)
  have h₄ := h₃.tail (DStep.run 1 rfl)
  have h₅ := h₄.tail (DStep.workdone 1 rfl)
  exact h₅.tail (DStep.request 3 .params2 rfl rfl)

/-- `nextblk` grows with a write exactly when the sum stays below `2 ^ 64`, and while it does the
store holds the blocks from `minblk` to `nextblk`.  Nothing checks the sum: on a directory whose
only file starts at block `2 ^ 64 - 2`, an APPEND of two blocks there is accepted, its response
gives 0 as the next block, PARAMS2 then reports that no block has been written, and the blocks
just written can no longer be read. -/
theorem reachable_nextblkWraps :
    (∀ (S S' : StorageState) (blkno nblks : UInt64), storageWrite S blkno nblks = some S' →
      (S.nextblk < S'.nextblk ↔ S.nextblk.toNat + nblks.toNat < 2 ^ 64)) ∧
    (∀ (S S' : StorageState) (blkno nblks : UInt64), S.Inv → storageWrite S blkno nblks = some S' →
      S.nextblk.toNat + nblks.toNat < 2 ^ 64 →
        S'.Inv ∧ S'.nextblk.toNat = S.nextblk.toNat + nblks.toNat) ∧
    Reachable (lbsInit 512 0x7FFFFFFFFFFFFFFF [⟨0xFFFFFFFFFFFFFFFE, 0⟩] 1) DStep wrapState ∧
      wrapState.sent =
        [.params 1 512 0xFFFFFFFFFFFFFFFE, .append 2 0 0, .params2 3 512 0 blknoNone] ∧
      storageRead wrapState.sstate 0xFFFFFFFFFFFFFFFE = some none :=
  ⟨fun _ _ _ _ h => storageWrite_nextblk_lt_iff h, fun _ _ _ _ hS h hfit => storageWrite_inv hS h hfit,
    reachable_wrapState, rfl, by decide⟩

end Kivaloo.Lbs
