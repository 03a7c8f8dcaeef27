import Kivaloo.Lib.Transition
import Kivaloo.LbsDynamodb.Writes

/-!
# Ownership of the metadata item (lbs-dynamodb/metadata.c)

Any number of lbs-dynamodb processes run side by side, each under a process ID that no other
process has (it is 32 random bytes).  A process reads the item and claims it by an ICAS that puts
its own ID in it; once the claim is answered with success, it writes by ICAS from the values it
last stored to the next ones, both under its ID.  The table performs each ICAS in flight,
perhaps more than once (a retried request), and answers it later; a process whose ICAS is
answered with a failure exits (a lost race retries under a new ID, as a new process), and its
requests stay in flight.  state.c's callbacks are numbered in the order they are registered; the
deleter's callback, performed after them, records a `deletedto` value and perhaps flushes.

Ghost lists record every ICAS the table performed successfully with the item it found, every
callback registered with the field and value it was registered for, and every callback performed
with the values then stored.

In every reachable state (`reachable_ownership`): when an ICAS of a process `A` succeeds after an
ICAS of another process, a claim of `A` succeeded in between on an item that `A` did not hold, so
that once `B` has claimed the item no process whose claim came before stores anything; each
process has at most one ICAS in flight, and the values it stored have consecutive generations;
and each callback registered was performed at most once, after the values it was registered for
were stored, and otherwise still waits or its process is dead.  A process that starts after
`B`'s claim does claim the item (`reachable_laterClaim`).
-/

namespace Kivaloo.LbsDynamodb

open Kivaloo.Lib

/-! ## The calls on the metadata -/

/-- The field a write of state.c sets. -/
inductive StateField
  | nextblk
  | lastblk
deriving DecidableEq, Repr

/-- The value of the field in a tuple. -/
def StateField.get {κ : Type} : StateField → MTuple κ → UInt64
  | .nextblk, t => t.nextblk
  | .lastblk, t => t.lastblk

/-- The calls of state.c and of the deleter on the metadata. -/
inductive MetaCall
  /-- `metadata_nextblk_write`. -/
  | nextblkWrite (v : UInt64)
  /-- `metadata_lastblk_write`. -/
  | lastblkWrite (v : UInt64)
  /-- `metadata_deletedto_write`. -/
  | deletedtoWrite (v : UInt64)
  /-- `metadata_flush`. -/
  | flush
deriving DecidableEq, Repr

/-- A call, with `cb` as the callback of a write of state.c; `none` when an assertion fails. -/
def MetaCall.run {κ : Type} (cb : κ) : MetaCall → Metadata κ → Option (Metadata κ × Option Icas)
  | .nextblkWrite v, M => metadataNextblkWrite M v cb
  | .lastblkWrite v, M => metadataLastblkWrite M v cb
  | .deletedtoWrite v, M => some (metadataDeletedtoWrite M v, none)
  | .flush, M => some (metadataFlush M)

/-- The field and value a call registers its callback for. -/
def MetaCall.registers : MetaCall → Option (StateField × UInt64)
  | .nextblkWrite v => some (.nextblk, v)
  | .lastblkWrite v => some (.lastblk, v)
  | .deletedtoWrite _ => none
  | .flush => none

/-! ## What the calls keep -/

section Calls

variable {κ : Type} {M : Metadata κ}

/-- A write of state.c records the value and its callback in `M_latest` and writes, provided no
callback was recorded. -/
theorem metadataStateWrite_eq_some {set : MTuple κ → MTuple κ} {cb : κ}
    {p : Metadata κ × Option Icas} :
    metadataStateWrite set M cb = some p ↔ M.latest.callbackState = none ∧
      p = writemetadata { M with latest := { set M.latest with callbackState := some cb } } := by
  unfold metadataStateWrite
  by_cases h : M.latest.callbackState = none
  · simp only [h, Option.isNone_none, if_true, Option.some.injEq, true_and]
    exact eq_comm
  · simp [h, Option.isNone_iff_eq_none]

@[simp] theorem inflight_deleterPoke (v : UInt64) (flush : Bool) :
    (deleterPoke v flush M).1.inflight = M.inflight ++ (deleterPoke v flush M).2.toList := by
  unfold deleterPoke metadataFlush
  cases flush <;> simp

@[simp] theorem deleterPoke_stored (v : UInt64) (flush : Bool) :
    (deleterPoke v flush M).1.stored = M.stored := by
  unfold deleterPoke metadataFlush
  cases flush <;> simp [metadataDeletedtoWrite]

@[simp] theorem deleterPoke_processId (v : UInt64) (flush : Bool) :
    (deleterPoke v flush M).1.processId = M.processId := by
  unfold deleterPoke metadataFlush
  cases flush <;> simp [metadataDeletedtoWrite]

@[simp] theorem writeIfWanted_processId : (writeIfWanted M).1.processId = M.processId := by
  unfold writeIfWanted
  split_ifs <;> simp

/-- The ICAS of a write in progress goes from and to items under the process's ID. -/
theorem processId_of_mem_inflight {r : Icas} (hr : r ∈ M.inflight) :
    r.old.processId = M.processId ∧ r.new.processId = M.processId := by
  rw [(mem_inflight M).mp hr |>.2]
  exact ⟨rfl, rfl⟩

/-- A property that writing and recording a `deletedto` keep is kept by the deleter's callback. -/
theorem deleterPoke_of {P : Metadata κ → Prop} (hw : ∀ M, P M → P (writemetadata M).1)
    (hd : ∀ M v, P M → P (metadataDeletedtoWrite M v)) (v : UInt64) (flush : Bool) (h : P M) :
    P (deleterPoke v flush M).1 := by
  unfold deleterPoke metadataFlush
  cases flush
  · exact hd M v h
  · exact hw _ (hd M v h)

/-- A property that writing keeps is kept by the end of `callback_writemetadata`. -/
theorem writeIfWanted_of {P : Metadata κ → Prop} (hw : ∀ M, P M → P (writemetadata M).1)
    (h : P M) : P (writeIfWanted M).1 := by
  unfold writeIfWanted
  split_ifs
  · exact hw M h
  · exact h

namespace MetaCall

variable {cb : κ} {c : MetaCall} {p : Metadata κ × Option Icas}

theorem run_processId (h : c.run cb M = some p) : p.1.processId = M.processId := by
  cases c with
  | nextblkWrite v | lastblkWrite v =>
    simp only [run, metadataNextblkWrite, metadataLastblkWrite] at h
    obtain ⟨-, rfl⟩ := metadataStateWrite_eq_some.mp h
    simp
  | deletedtoWrite v => cases h; rfl
  | flush => cases h; simp [metadataFlush]

theorem run_stored (h : c.run cb M = some p) : p.1.stored = M.stored := by
  cases c with
  | nextblkWrite v | lastblkWrite v =>
    simp only [run, metadataNextblkWrite, metadataLastblkWrite] at h
    obtain ⟨-, rfl⟩ := metadataStateWrite_eq_some.mp h
    simp
  | deletedtoWrite v => cases h; rfl
  | flush => cases h; simp [metadataFlush]

/-- A call issues its ICAS, if any, beside the one in flight. -/
theorem run_inflight (h : c.run cb M = some p) : p.1.inflight = M.inflight ++ p.2.toList := by
  cases c with
  | nextblkWrite v | lastblkWrite v =>
    simp only [run, metadataNextblkWrite, metadataLastblkWrite] at h
    exact inflight_metadataStateWrite M h
  | deletedtoWrite v => cases h; simp
  | flush => cases h; simp [metadataFlush]

/-- A write of state.c adds its callback after those waiting; the deleter's calls add none. -/
theorem run_pending (h : c.run cb M = some p) :
    p.1.pending = M.pending ++ (c.registers.map fun _ => cb).toList := by
  cases c with
  | nextblkWrite v | lastblkWrite v =>
    simp only [run, metadataNextblkWrite, metadataLastblkWrite] at h
    simpa [registers] using pending_metadataStateWrite M h
  | deletedtoWrite v => cases h; simp [registers]
  | flush => cases h; simp [registers, metadataFlush]

end MetaCall

end Calls

/-! ## The generations a process stores -/

/-- The generations a process keeps: a write in progress stores the generation after the stored
one, and the next write the generation after that. -/
structure Metadata.GenOK {κ : Type} (M : Metadata κ) : Prop where
  storing : M.writeInprogress = true → M.storing.generation = M.stored.generation + 1
  latest : M.latest.generation =
    (if M.writeInprogress then M.storing else M.stored).generation + 1

namespace Metadata.GenOK

variable {κ : Type} {M : Metadata κ}

theorem write (h : M.GenOK) : (writemetadata M).1.GenOK := by
  cases hw : M.writeInprogress
  · have hl := h.latest
    simp only [hw] at hl
    exact ⟨fun _ => by simpa [writemetadata, hw] using hl, by simp [writemetadata, hw]⟩
  · simp only [writemetadata, hw, if_true]
    exact ⟨fun _ => h.storing hw, by simpa [hw] using h.latest⟩

theorem deletedtoWrite (h : M.GenOK) (v : UInt64) : (metadataDeletedtoWrite M v).GenOK :=
  ⟨h.storing, h.latest⟩

theorem callbackWrite (h : M.GenOK) (hw : M.writeInprogress = true) :
    (callbackWritemetadata M).GenOK := by
  have hl := h.latest
  simp only [hw, if_true] at hl
  exact ⟨by simp, by simpa [callbackWritemetadata] using hl⟩

theorem deleterPoke (h : M.GenOK) (v : UInt64) (flush : Bool) :
    (LbsDynamodb.deleterPoke v flush M).1.GenOK :=
  deleterPoke_of (fun _ => write) (fun _ v h => h.deletedtoWrite v) v flush h

theorem writeIfWanted (h : M.GenOK) : (LbsDynamodb.writeIfWanted M).1.GenOK :=
  writeIfWanted_of (fun _ => write) h

/-- The calls keep the generations: state.c's writes set other fields. -/
theorem run (h : M.GenOK) {cb : κ} {c : MetaCall} {p : Metadata κ × Option Icas}
    (hc : c.run cb M = some p) : p.1.GenOK := by
  cases c with
  | nextblkWrite v | lastblkWrite v =>
    simp only [MetaCall.run, metadataNextblkWrite, metadataLastblkWrite] at hc
    obtain ⟨-, rfl⟩ := metadataStateWrite_eq_some.mp hc
    exact write ⟨h.storing, h.latest⟩
  | deletedtoWrite v => cases hc; exact h.deletedtoWrite v
  | flush => cases hc; exact write h

theorem metadataInit (I : Item) (pid : ℕ) : (LbsDynamodb.metadataInit I pid : Metadata κ).GenOK :=
  ⟨fun h => Bool.noConfusion h, rfl⟩

end Metadata.GenOK

/-! ## The system -/

/-- A callback registered: its number, its process, and the field and value it waits for. -/
structure Registration where
  tag : ℕ
  pid : ℕ
  field : StateField
  value : UInt64
deriving DecidableEq, Repr

/-- A callback performed: its number, its process, and the values stored when it was. -/
structure Call where
  tag : ℕ
  pid : ℕ
  stored : MTuple ℕ
deriving DecidableEq, Repr

/-- Where a process stands: claiming the item it read, running with its metadata (whose
callbacks are numbers), or dead. -/
inductive MState
  | claiming (I : Item)
  | running (MD : Metadata ℕ)
  | dead

/-- A process, with the generations of the values it stored, in order. -/
structure MProc where
  state : MState
  gens : List UInt64

/-- The processes by process ID, the metadata item, and the ICAS requests in flight. -/
structure OWorld where
  procs : ℕ → Option MProc
  item : Item
  inflight : List Icas
  /-- Every ICAS the table performed successfully. -/
  acked : List Icas
  /-- Every successful ICAS with the item it found, in order. -/
  log : List (Item × Icas)
  /-- Every callback registered, numbered by its place. -/
  regs : List Registration
  /-- Every callback performed. -/
  calls : List Call

/-- `callback_writemetadata` of the process `pid` once its ICAS `r` is answered with success: the
values are stored, the callback stored with them is performed, the deleter's callback records
`v` and perhaps flushes, and another write starts if one was asked for. -/
def OWorld.answer (W : OWorld) (pid : ℕ) (MD : Metadata ℕ) (gens : List UInt64) (r : Icas)
    (v : UInt64) (flush : Bool) : OWorld :=
  let MD₁ := callbackWritemetadata MD
  let MD₂ := deleterPoke v flush MD₁
  let MD₃ := writeIfWanted MD₂.1
  { W with
    procs := Function.update W.procs pid (some ⟨.running MD₃.1, gens ++ [MD₁.stored.generation]⟩)
    inflight := W.inflight.erase r ++ MD₂.2.toList ++ MD₃.2.toList
    calls := W.calls ++ (MD₁.stored.callbackState.map fun tag => ⟨tag, pid, MD₁.stored⟩).toList }

section Answer

variable (W : OWorld) (pid : ℕ) (MD : Metadata ℕ) (gens : List UInt64) (r : Icas) (v : UInt64)
  (flush : Bool)

@[simp] theorem answer_calls : (W.answer pid MD gens r v flush).calls =
    W.calls ++ (MD.storing.callbackState.map fun t => ⟨t, pid, MD.storing⟩).toList := rfl

@[simp] theorem answer_inflight : (W.answer pid MD gens r v flush).inflight =
    W.inflight.erase r ++ ((deleterPoke v flush (callbackWritemetadata MD)).2.toList ++
      (writeIfWanted (deleterPoke v flush (callbackWritemetadata MD)).1).2.toList) :=
  List.append_assoc _ _ _

@[simp] theorem answer_regs : (W.answer pid MD gens r v flush).regs = W.regs := rfl

end Answer

/-- The steps of the system. -/
inductive OStep : OWorld → OWorld → Prop
  /-- A new process reads the item (`callback_readmetadata`) under a process ID no process has
  and issues the ICAS that claims it. -/
  | read {W : OWorld} {pid : ℕ} :
      W.procs pid = none →
      OStep W { W with
        procs := Function.update W.procs pid (some ⟨.claiming W.item, []⟩)
        inflight := W.inflight ++ [claimIcas W.item pid] }
  /-- The table performs an ICAS in flight; its answer comes later, if at all. -/
  | perform {W : OWorld} {r : Icas} {I : Item} :
      r ∈ W.inflight → r.perform W.item = some I →
      OStep W { W with item := I, acked := W.acked ++ [r], log := W.log ++ [(W.item, r)] }
  /-- The claim is answered with success: `metadata_init` goes on from the values claimed. -/
  | claimed {W : OWorld} {pid : ℕ} {I : Item} {gens : List UInt64} :
      W.procs pid = some ⟨.claiming I, gens⟩ → claimIcas I pid ∈ W.acked →
      OStep W { W with
        procs := Function.update W.procs pid
          (some ⟨.running (metadataInit (claimIcas I pid).new pid), [I.generation]⟩)
        inflight := W.inflight.erase (claimIcas I pid) }
  /-- A running process calls the metadata code; a write of state.c registers its callback
  under the next number. -/
  | call {W : OWorld} {pid : ℕ} {MD : Metadata ℕ} {gens : List UInt64} {c : MetaCall}
      {p : Metadata ℕ × Option Icas} :
      W.procs pid = some ⟨.running MD, gens⟩ → c.run W.regs.length MD = some p →
      OStep W { W with
        procs := Function.update W.procs pid (some ⟨.running p.1, gens⟩)
        inflight := W.inflight ++ p.2.toList
        regs := W.regs ++ (c.registers.map fun fv => ⟨W.regs.length, pid, fv.1, fv.2⟩).toList }
  /-- A write of a running process, which the table performed, is answered with success. -/
  | answer {W : OWorld} {pid : ℕ} {MD : Metadata ℕ} {gens : List UInt64} {r : Icas}
      {v : UInt64} {flush : Bool} :
      W.procs pid = some ⟨.running MD, gens⟩ → r ∈ W.inflight → r.new.processId = pid →
      r ∈ W.acked → OStep W (W.answer pid MD gens r v flush)
  /-- A process exits: an ICAS answered with a failure, a lost race, or a crash.  Its requests
  stay in flight. -/
  | exit {W : OWorld} {pid : ℕ} {P : MProc} :
      W.procs pid = some P →
      OStep W { W with procs := Function.update W.procs pid (some ⟨.dead, P.gens⟩) }

/-- A table lbs-dynamodb-init created, before any process ran. -/
def oInit (W : OWorld) : Prop :=
  W.procs = (fun _ => none) ∧ W.item = createmetadata ∧ W.inflight = [] ∧ W.acked = [] ∧
    W.log = [] ∧ W.regs = [] ∧ W.calls = []

/-! ## The values the callbacks wait for -/

/-- A tuple holds, in the field its callback was registered for, the value registered; a
callback is named by its place among those registered. -/
def MTuple.Meets (regs : List Registration) (t : MTuple ℕ) : Prop :=
  ∀ tag, t.callbackState = some tag → ∃ g, regs[tag]? = some g ∧ g.field.get t = g.value

/-- The latest values and those of a write in progress hold what their callbacks wait for. -/
structure Metadata.Meets (regs : List Registration) (M : Metadata ℕ) : Prop where
  latest : M.latest.Meets regs
  storing : M.writeInprogress = true → M.storing.Meets regs

@[simp] theorem StateField.get_deletedto (f : StateField) (t : MTuple ℕ) (v : UInt64) :
    f.get { t with deletedto := v } = f.get t := by
  cases f <;> rfl

theorem MTuple.Meets.mono {regs : List Registration} {t : MTuple ℕ} (h : t.Meets regs)
    (l : List Registration) : t.Meets (regs ++ l) := by
  intro tag ht
  obtain ⟨g, hg, hv⟩ := h tag ht
  have hlt : tag < regs.length := (List.getElem?_eq_some_iff.mp hg).1
  exact ⟨g, by rw [List.getElem?_append_left hlt, hg], hv⟩

namespace Metadata.Meets

variable {regs : List Registration} {M : Metadata ℕ}

theorem mono (h : M.Meets regs) (l : List Registration) : M.Meets (regs ++ l) :=
  ⟨h.latest.mono l, fun hw => (h.storing hw).mono l⟩

theorem write (h : M.Meets regs) : (writemetadata M).1.Meets regs := by
  cases hw : M.writeInprogress
  · -- the latest values are now being stored, and the next ones wait for no callback
    refine ⟨fun tag ht => ?_, fun _ => ?_⟩
    · simp [writemetadata, hw] at ht
    · simpa [writemetadata, hw] using h.latest
  · simp only [writemetadata, hw, if_true]
    exact ⟨h.latest, fun _ => h.storing hw⟩

theorem deletedtoWrite (h : M.Meets regs) (v : UInt64) : (metadataDeletedtoWrite M v).Meets regs := by
  refine ⟨fun tag ht => ?_, h.storing⟩
  obtain ⟨g, hg, hv⟩ := h.latest tag ht
  exact ⟨g, hg, (StateField.get_deletedto _ _ _).trans hv⟩

/-- Once the write in progress completes, only the latest values wait. -/
theorem callbackWrite (h : M.Meets regs) : (callbackWritemetadata M).Meets regs :=
  ⟨h.latest, fun hw => Bool.noConfusion hw⟩

theorem deleterPoke (h : M.Meets regs) (v : UInt64) (flush : Bool) :
    (LbsDynamodb.deleterPoke v flush M).1.Meets regs :=
  deleterPoke_of (fun _ => write) (fun _ v h => h.deletedtoWrite v) v flush h

theorem writeIfWanted (h : M.Meets regs) : (LbsDynamodb.writeIfWanted M).1.Meets regs :=
  writeIfWanted_of (fun _ => write) h

/-- A write of state.c registers its callback under the next number, for the value it records. -/
theorem run (h : M.Meets regs) (pid : ℕ) {c : MetaCall} {p : Metadata ℕ × Option Icas}
    (hc : c.run regs.length M = some p) :
    p.1.Meets (regs ++ (c.registers.map fun fv => ⟨regs.length, pid, fv.1, fv.2⟩).toList) := by
  cases c with
  | nextblkWrite v | lastblkWrite v =>
    simp only [MetaCall.run, metadataNextblkWrite, metadataLastblkWrite] at hc
    obtain ⟨-, rfl⟩ := metadataStateWrite_eq_some.mp hc
    refine write ⟨fun tag ht => ?_, fun hw => (h.storing hw).mono _⟩
    cases ht
    exact ⟨_, List.getElem?_concat_length, rfl⟩
  | deletedtoWrite v => cases hc; simpa [MetaCall.registers] using h.deletedtoWrite v
  | flush => cases hc; simpa [MetaCall.registers, metadataFlush] using h.write

end Metadata.Meets

/-! ## The takeovers of the item -/

/-- A successful ICAS found the item it replaces or the item it stores. -/
theorem Icas.eq_of_perform {r : Icas} {cur I : Item} (h : r.perform cur = some I) :
    cur = r.old ∨ cur = r.new := by
  unfold Icas.perform at h
  split_ifs at h with hc
  exact hc

/-- When a successful ICAS of a process follows one of another process, a claim of the former
succeeded in between, on an item it did not hold. -/
def TakeoverLog (log : List (Item × Icas)) : Prop :=
  ∀ (i j : ℕ) (e e' : Item × Icas), i < j → log[i]? = some e → log[j]? = some e' →
    e.2.new.processId ≠ e'.2.new.processId →
    ∃ (t : ℕ) (e'' : Item × Icas), i < t ∧ t ≤ j ∧ log[t]? = some e'' ∧ e''.1.processId ≠ e'.2.new.processId ∧
      e''.2 = claimIcas e''.1 e'.2.new.processId

/-- A successful ICAS that keeps its process's ID, or that claims the item it found, found an item
held by its process, or is a claim of the item from another process. -/
theorem claim_of_perform {r : Icas} {cur I : Item}
    (hform : r.old.processId = r.new.processId ∨ r = claimIcas r.old r.new.processId)
    (hperf : r.perform cur = some I) (hcur : cur.processId ≠ r.new.processId) :
    r = claimIcas cur r.new.processId := by
  rcases Icas.eq_of_perform hperf with rfl | rfl
  · rcases hform with hpid | hclaim
    · exact absurd hpid hcur
    · exact hclaim
  · exact absurd rfl hcur

/-- A successful ICAS keeps the takeovers of the log: after an ICAS of another process, an ICAS
that finds the item held by its own process follows the claim that took it, and one that does
not is itself such a claim. -/
theorem TakeoverLog.append {log : List (Item × Icas)} {cur I : Item} {r : Icas}
    (h : TakeoverLog log) (hlast : ∀ e, log.getLast? = some e → e.2.new = cur)
    (hform : r.old.processId = r.new.processId ∨ r = claimIcas r.old r.new.processId)
    (hperf : r.perform cur = some I) : TakeoverLog (log ++ [(cur, r)]) := by
  intro i j e e' hij hi hj hne
  have hjlen : j < log.length + 1 := by
    simpa using (List.getElem?_eq_some_iff.mp hj).1
  have hi' : log[i]? = some e := by rwa [List.getElem?_append_left (by omega)] at hi
  -- a witness found in the old log is one in the new log
  have lift : ∀ t e'', log[t]? = some e'' → (log ++ [(cur, r)])[t]? = some e'' := fun t e'' ht => by
    rw [List.getElem?_append_left (List.getElem?_eq_some_iff.mp ht).1, ht]
  rcases Nat.lt_or_ge j log.length with hjl | hjl
  · rw [List.getElem?_append_left hjl] at hj
    obtain ⟨t, e'', hit, htj, ht, hpid, hclaim⟩ := h i j e e' hij hi' hj hne
    exact ⟨t, e'', hit, htj, lift t e'' ht, hpid, hclaim⟩
  · -- the new entry, an ICAS of `A`
    obtain rfl : j = log.length := by omega
    rw [List.getElem?_concat_length, Option.some.injEq] at hj
    subst hj
    by_cases hcur : cur.processId = r.new.processId
    · -- the item is `A`'s: the last entry stored it, and the old log has the claim
      obtain ⟨last, hlastget⟩ : ∃ last, log[log.length - 1]? = some last :=
        ⟨_, List.getElem?_eq_getElem (by omega)⟩
      have hnew : last.2.new = cur := hlast last (by rw [List.getLast?_eq_getElem?, hlastget])
      have hik : i < log.length - 1 := by
        rcases Nat.lt_or_ge i (log.length - 1) with hik | hik
        · exact hik
        · obtain rfl : i = log.length - 1 := by omega
          rw [hi', Option.some.injEq] at hlastget
          subst hlastget
          exact absurd (hnew ▸ hcur) hne
      obtain ⟨t, e'', hit, htj, ht, hpid, hclaim⟩ := h i _ e last hik hi' hlastget (by
        rw [hnew, hcur]; exact hne)
      rw [hnew, hcur] at hpid hclaim
      exact ⟨t, e'', hit, by omega, lift t e'' ht, hpid, hclaim⟩
    · exact ⟨log.length, (cur, r), hij, le_rfl, List.getElem?_concat_length, hcur,
        claim_of_perform hform hperf hcur⟩

/-! ## The invariant -/

namespace OWorld

variable (W : OWorld)

/-- The ICAS requests in flight that store under the process ID `pid`. -/
def mine (pid : ℕ) : List Icas := W.inflight.filter fun r => r.new.processId = pid

/-- The callbacks `pid` registered, in order. -/
def regsOf (pid : ℕ) : List ℕ := (W.regs.filter fun g => g.pid = pid).map (·.tag)

/-- The callbacks of `pid` performed, in order. -/
def callsOf (pid : ℕ) : List ℕ := (W.calls.filter fun c => c.pid = pid).map (·.tag)

end OWorld

/-- What a running process keeps: the ICAS of its write in progress is its only one in flight;
the generations it stored are consecutive and end with that of its stored values; and the
callbacks it registered are those performed followed by those waiting, in order. -/
structure RunningOK (W : OWorld) (pid : ℕ) (MD : Metadata ℕ) (gens : List UInt64) : Prop where
  processId : MD.processId = pid
  mine : W.mine pid = MD.inflight
  gens_last : gens.getLast? = some MD.stored.generation
  gens : gens.IsChain fun a b => b = a + 1
  gen : MD.GenOK
  callbacks : W.regsOf pid = W.callsOf pid ++ MD.pending
  meets : MD.Meets W.regs

/-- What each process ID keeps, by where its process stands; a dead process's requests may still
be in flight. -/
def MProcOK (W : OWorld) (pid : ℕ) : Option MProc → Prop
  | none => W.mine pid = [] ∧ W.regsOf pid = [] ∧ W.callsOf pid = []
  | some ⟨.claiming I, gens⟩ =>
    W.mine pid = [claimIcas I pid] ∧ gens = [] ∧ W.regsOf pid = [] ∧ W.callsOf pid = []
  | some ⟨.running MD, gens⟩ => RunningOK W pid MD gens
  | some ⟨.dead, gens⟩ =>
    (W.mine pid).length ≤ 1 ∧ (gens.IsChain fun a b => b = a + 1) ∧ W.callsOf pid <+: W.regsOf pid

/-- The invariant of the system: callbacks are numbered by their place, and each performed was
registered by its process, for a value the store it follows holds; the requests in flight are
writes under one ID or claims; the log's last entry stored the item, and its takeovers go through
claims; the generations a process stored were stored; and each process keeps `MProcOK`. -/
structure OWorld.Inv (W : OWorld) : Prop where
  regs_tags : W.regs.map (·.tag) = List.range W.regs.length
  calls_nodup : (W.calls.map (·.tag)).Nodup
  calls_reg : ∀ c ∈ W.calls,
    ∃ g, W.regs[c.tag]? = some g ∧ g.pid = c.pid ∧ g.field.get c.stored = g.value
  calls_acked : ∀ c ∈ W.calls, ∃ r ∈ W.acked, r.new = c.stored.encode c.pid
  form : ∀ r ∈ W.inflight, r.old.processId = r.new.processId ∨ r = claimIcas r.old r.new.processId
  item_log : ∀ e, W.log.getLast? = some e → e.2.new = W.item
  log_takeover : TakeoverLog W.log
  gens_acked : ∀ pid P, W.procs pid = some P →
    ∀ g ∈ P.gens, ∃ r ∈ W.acked, r.new.processId = pid ∧ r.new.generation = g
  procs : ∀ pid, MProcOK W pid (W.procs pid)

section Helpers

variable {W W' : OWorld} {pid : ℕ}

/-- Requests of other processes leave a process's requests as they are. -/
theorem filter_append_other {l L : List Icas} {q : ℕ} (hL : ∀ r ∈ L, r.new.processId ≠ q) :
    (l ++ L).filter (fun r => r.new.processId = q) = l.filter fun r => r.new.processId = q := by
  have hnil : L.filter (fun r => r.new.processId = q) = [] :=
    List.filter_eq_nil_iff.mpr (by simpa using hL)
  rw [List.filter_append, hnil, List.append_nil]

/-- Requests of the process itself are all kept. -/
theorem filter_append_own {l L : List Icas} {q : ℕ} (hL : ∀ r ∈ L, r.new.processId = q) :
    (l ++ L).filter (fun r => r.new.processId = q) = l.filter (fun r => r.new.processId = q) ++ L := by
  have hself : L.filter (fun r => r.new.processId = q) = L :=
    List.filter_eq_self.mpr (by simpa using hL)
  rw [List.filter_append, hself]

theorem filter_erase_other {l : List Icas} {r : Icas} {q : ℕ} (hr : r.new.processId ≠ q) :
    (l.erase r).filter (fun s => s.new.processId = q) = l.filter fun s => s.new.processId = q := by
  rw [← List.erase_filter, List.erase_of_not_mem (by simp [hr])]

theorem getElem?_append_of_some {α : Type} {l l' : List α} {i : ℕ} {a : α} (h : l[i]? = some a) :
    (l ++ l')[i]? = some a := by
  rw [List.getElem?_append_left (List.getElem?_eq_some_iff.mp h).1, h]

theorem Metadata.length_inflight_le {κ : Type} (M : Metadata κ) : M.inflight.length ≤ 1 := by
  unfold Metadata.inflight
  split_ifs <;> simp

/-- `RunningOK` reads the world only through the process's requests, callbacks and the
registrations, which may grow. -/
theorem RunningOK.congr {MD : Metadata ℕ} {gens : List UInt64} (h : RunningOK W pid MD gens)
    (hm : W'.mine pid = W.mine pid) (hr : W'.regsOf pid = W.regsOf pid)
    (hc : W'.callsOf pid = W.callsOf pid) (hregs : ∃ l, W'.regs = W.regs ++ l) :
    RunningOK W' pid MD gens := by
  obtain ⟨l, hl⟩ := hregs
  refine ⟨h.processId, hm.trans h.mine, h.gens_last, h.gens, h.gen, ?_, hl ▸ h.meets.mono l⟩
  rw [hr, hc]
  exact h.callbacks

theorem MProcOK.congr {P : Option MProc} (h : MProcOK W pid P)
    (hm : W'.mine pid = W.mine pid) (hr : W'.regsOf pid = W.regsOf pid)
    (hc : W'.callsOf pid = W.callsOf pid) (hregs : ∃ l, W'.regs = W.regs ++ l) :
    MProcOK W' pid P := by
  rcases P with _ | ⟨_ | MD | _, gens⟩
  · simpa only [MProcOK, hm, hr, hc] using h
  · simpa only [MProcOK, hm, hr, hc] using h
  · exact RunningOK.congr (W := W) h hm hr hc hregs
  · simpa only [MProcOK, hm, hr, hc] using h

/-- Whatever a process was doing, once it exits it has at most one request in flight, stored
consecutive generations, and performed a prefix of the callbacks it registered. -/
theorem MProcOK.dead {P : MProc} (h : MProcOK W pid (some P)) :
    MProcOK W pid (some ⟨.dead, P.gens⟩) := by
  rcases P with ⟨_ | MD | _, gens⟩
  · obtain ⟨hm, rfl, hr, hc⟩ := h
    exact ⟨by simp [hm], List.isChain_nil, by rw [hr, hc]⟩
  · have h : RunningOK W pid MD gens := h
    exact ⟨h.mine ▸ MD.length_inflight_le, h.gens, h.callbacks ▸ List.prefix_append _ _⟩
  · exact h

/-- A step that updates one process keeps every process's facts once the updated one's and
the others' hold. -/
theorem procs_update {Q : Option MProc} (hp : W'.procs = Function.update W.procs pid Q)
    (hQ : MProcOK W' pid Q) (hother : ∀ q, q ≠ pid → MProcOK W' q (W.procs q)) :
    ∀ q, MProcOK W' q (W'.procs q) := by
  intro q
  rw [hp]
  rcases eq_or_ne q pid with rfl | hne
  · rwa [Function.update_self]
  · rw [Function.update_of_ne hne]
    exact hother q hne

namespace OWorld.Inv

variable (hW : W.Inv)
include hW

/-- A callback registered is found at its number. -/
theorem getElem?_tag {g : Registration} (hg : g ∈ W.regs) : W.regs[g.tag]? = some g := by
  obtain ⟨i, hi⟩ := List.mem_iff_getElem?.mp hg
  have htag : (W.regs.map (·.tag))[i]? = some g.tag := by simp [hi]
  rw [hW.regs_tags, List.getElem?_range (List.getElem?_eq_some_iff.mp hi).1] at htag
  rw [← Option.some.inj htag, hi]

theorem regsOf_nodup (q : ℕ) : (W.regsOf q).Nodup := by
  have h : (W.regs.map (·.tag)).Nodup := hW.regs_tags ▸ List.nodup_range
  exact h.sublist (List.filter_sublist.map _)

/-- A callback a process registered is registered under its ID. -/
theorem getElem?_of_mem_regsOf {q t : ℕ} (ht : t ∈ W.regsOf q) :
    ∃ g, W.regs[t]? = some g ∧ g.pid = q := by
  obtain ⟨g, hg, rfl⟩ := List.mem_map.mp ht
  obtain ⟨hmem, hq⟩ := List.mem_filter.mp hg
  exact ⟨g, hW.getElem?_tag hmem, by simpa using hq⟩

/-- A callback waiting in a running process is registered under its ID. -/
theorem reg_of_pending {MD : Metadata ℕ} {gens : List UInt64} (h : RunningOK W pid MD gens)
    {t : ℕ} (ht : t ∈ MD.pending) : ∃ g, W.regs[t]? = some g ∧ g.pid = pid :=
  hW.getElem?_of_mem_regsOf (h.callbacks ▸ List.mem_append_right _ ht)

/-- A callback waiting in a running process has not been performed. -/
theorem not_mem_calls {MD : Metadata ℕ} {gens : List UInt64} (h : RunningOK W pid MD gens)
    {t : ℕ} (ht : t ∈ MD.pending) : t ∉ W.calls.map (·.tag) := by
  intro hmem
  obtain ⟨c, hc, rfl⟩ := List.mem_map.mp hmem
  obtain ⟨g, hg, hgpid⟩ := hW.reg_of_pending h ht
  obtain ⟨g', hg', hg'pid, -⟩ := hW.calls_reg c hc
  -- the registration names the process, so the call is one of its own
  have hcpid : c.pid = pid := by
    rw [hg, Option.some.injEq] at hg'
    rw [← hg'pid, ← hg', hgpid]
  have hcalls : c.tag ∈ W.callsOf pid :=
    List.mem_map.mpr ⟨c, List.mem_filter.mpr ⟨hc, by simpa using hcpid⟩, rfl⟩
  have hnd := hW.regsOf_nodup pid
  rw [h.callbacks] at hnd
  exact List.disjoint_of_nodup_append hnd hcalls ht

end OWorld.Inv

/-- Each process ID has at most one request in flight. -/
theorem MProcOK.length_mine_le {P : Option MProc} (h : MProcOK W pid P) :
    (W.mine pid).length ≤ 1 := by
  rcases P with _ | ⟨_ | MD | _, gens⟩
  · rw [h.1]
    simp
  · rw [h.1]
    simp
  · have h : RunningOK W pid MD gens := h
    exact h.mine ▸ MD.length_inflight_le
  · exact h.1

theorem MProcOK.gens_chain {P : MProc} (h : MProcOK W pid (some P)) :
    P.gens.IsChain fun a b => b = a + 1 := by
  rcases P with ⟨_ | MD | _, gens⟩
  · rw [h.2.1]
    exact List.isChain_nil
  · exact RunningOK.gens (W := W) h
  · exact h.2.1

/-- A callback a process registered was performed, still waits in its running process, or its
process is dead. -/
theorem MProcOK.mem_regsOf {P : Option MProc} (h : MProcOK W pid P) {t : ℕ}
    (ht : t ∈ W.regsOf pid) :
    t ∈ W.callsOf pid ∨ (∃ MD gens, P = some ⟨.running MD, gens⟩ ∧ t ∈ MD.pending) ∨
      ∃ gens, P = some ⟨.dead, gens⟩ := by
  rcases P with _ | ⟨_ | MD | _, gens⟩
  · rw [h.2.1] at ht
    simp at ht
  · rw [h.2.2.1] at ht
    simp at ht
  · have h : RunningOK W pid MD gens := h
    rw [h.callbacks, List.mem_append] at ht
    rcases ht with ht | ht
    · exact .inl ht
    · exact .inr (.inl ⟨MD, gens, rfl, ht⟩)
  · exact .inr (.inr ⟨gens, rfl⟩)

end Helpers

/-- The generations of the process updated were stored if those of the others were. -/
theorem gensAcked_update {procs : ℕ → Option MProc} {acked : List Icas} {pid : ℕ} {Q : MProc}
    (h : ∀ q P, procs q = some P →
      ∀ g ∈ P.gens, ∃ r ∈ acked, r.new.processId = q ∧ r.new.generation = g)
    (hQ : ∀ g ∈ Q.gens, ∃ r ∈ acked, r.new.processId = pid ∧ r.new.generation = g) :
    ∀ q P, Function.update procs pid (some Q) q = some P →
      ∀ g ∈ P.gens, ∃ r ∈ acked, r.new.processId = q ∧ r.new.generation = g := by
  intro q P hq
  rcases eq_or_ne q pid with rfl | hne
  · rw [Function.update_self, Option.some.injEq] at hq
    exact hq ▸ hQ
  · rw [Function.update_of_ne hne] at hq
    exact h q P hq

/-! ## What each step keeps -/

namespace OWorld

variable {W : OWorld}

theorem read_inv (hW : W.Inv) {pid : ℕ} (hp : W.procs pid = none) :
    OWorld.Inv { W with
      procs := Function.update W.procs pid (some ⟨.claiming W.item, []⟩)
      inflight := W.inflight ++ [claimIcas W.item pid] } where
  regs_tags := hW.regs_tags
  calls_nodup := hW.calls_nodup
  calls_reg := hW.calls_reg
  calls_acked := hW.calls_acked
  form r hr := by
    rcases List.mem_append.mp hr with hr | hr
    · exact hW.form r hr
    · rw [List.mem_singleton.mp hr]
      exact .inr rfl
  item_log := hW.item_log
  log_takeover := hW.log_takeover
  gens_acked := gensAcked_update hW.gens_acked (by simp)
  procs := by
    obtain ⟨hm, hr, hc⟩ : MProcOK W pid none := hp ▸ hW.procs pid
    refine procs_update rfl ⟨?_, rfl, hr, hc⟩ fun q hq =>
      (hW.procs q).congr (filter_append_other (by simp [claimIcas, Ne.symm hq])) rfl rfl
        ⟨[], (List.append_nil _).symm⟩
    -- the new process's only request is its claim
    show (W.inflight ++ _).filter _ = _
    rw [filter_append_own (by simp [claimIcas])]
    exact congrArg (· ++ _) hm

theorem perform_inv (hW : W.Inv) {r : Icas} {I : Item} (hr : r ∈ W.inflight)
    (hI : r.perform W.item = some I) :
    OWorld.Inv { W with item := I, acked := W.acked ++ [r], log := W.log ++ [(W.item, r)] } where
  regs_tags := hW.regs_tags
  calls_nodup := hW.calls_nodup
  calls_reg := hW.calls_reg
  calls_acked c hc := by
    obtain ⟨r', hr', hnew⟩ := hW.calls_acked c hc
    exact ⟨r', List.mem_append_left _ hr', hnew⟩
  form := hW.form
  item_log e he := by
    rw [List.getLast?_concat, Option.some.injEq] at he
    subst he
    exact (Icas.eq_new_of_perform hI).symm
  log_takeover := hW.log_takeover.append hW.item_log (hW.form r hr) hI
  gens_acked q P hq g hg := by
    obtain ⟨r', hr', hpid, hgen⟩ := hW.gens_acked q P hq g hg
    exact ⟨r', List.mem_append_left _ hr', hpid, hgen⟩
  procs q := (hW.procs q).congr rfl rfl rfl ⟨[], (List.append_nil _).symm⟩

theorem exit_inv (hW : W.Inv) {pid : ℕ} {P : MProc} (hp : W.procs pid = some P) :
    OWorld.Inv { W with procs := Function.update W.procs pid (some ⟨.dead, P.gens⟩) } where
  regs_tags := hW.regs_tags
  calls_nodup := hW.calls_nodup
  calls_reg := hW.calls_reg
  calls_acked := hW.calls_acked
  form := hW.form
  item_log := hW.item_log
  log_takeover := hW.log_takeover
  gens_acked := gensAcked_update hW.gens_acked (hW.gens_acked pid P hp)
  procs := procs_update rfl
    ((hp ▸ hW.procs pid : MProcOK W pid (some P)).dead.congr rfl rfl rfl
      ⟨[], (List.append_nil _).symm⟩)
    fun q _ => (hW.procs q).congr rfl rfl rfl ⟨[], (List.append_nil _).symm⟩

theorem claimed_inv (hW : W.Inv) {pid : ℕ} {I : Item} {gens : List UInt64}
    (hp : W.procs pid = some ⟨.claiming I, gens⟩) (ha : claimIcas I pid ∈ W.acked) :
    OWorld.Inv { W with
      procs := Function.update W.procs pid
        (some ⟨.running (metadataInit (claimIcas I pid).new pid), [I.generation]⟩)
      inflight := W.inflight.erase (claimIcas I pid) } where
  regs_tags := hW.regs_tags
  calls_nodup := hW.calls_nodup
  calls_reg := hW.calls_reg
  calls_acked := hW.calls_acked
  form r hr := hW.form r (List.mem_of_mem_erase hr)
  item_log := hW.item_log
  log_takeover := hW.log_takeover
  gens_acked := gensAcked_update hW.gens_acked fun g hg =>
    ⟨_, ha, rfl, (List.mem_singleton.mp hg).symm⟩
  procs := by
    obtain ⟨hm, -, hr, hc⟩ : MProcOK W pid (some ⟨.claiming I, gens⟩) := hp ▸ hW.procs pid
    refine procs_update rfl ?_ fun q hq =>
      (hW.procs q).congr (filter_erase_other (by simpa [claimIcas] using Ne.symm hq)) rfl rfl
        ⟨[], (List.append_nil _).symm⟩
    -- the process runs from the values it claimed, with nothing in flight or waiting
    refine ⟨rfl, ?_, rfl, List.isChain_singleton _, Metadata.GenOK.metadataInit _ _, ?_,
      ⟨fun _ ht => by simp [metadataInit, Item.parse] at ht, fun hw => Bool.noConfusion hw⟩⟩
    · show (W.inflight.erase _).filter _ = _
      rw [← List.erase_filter]
      change (W.mine pid).erase _ = _
      rw [hm, List.erase_cons_head]
      rfl
    · show W.regsOf pid = W.callsOf pid ++ _
      rw [hr, hc]
      rfl

theorem call_inv (hW : W.Inv) {pid : ℕ} {MD : Metadata ℕ} {gens : List UInt64} {c : MetaCall}
    {p : Metadata ℕ × Option Icas} (hp : W.procs pid = some ⟨.running MD, gens⟩)
    (hc : c.run W.regs.length MD = some p) :
    OWorld.Inv { W with
      procs := Function.update W.procs pid (some ⟨.running p.1, gens⟩)
      inflight := W.inflight ++ p.2.toList
      regs := W.regs ++ (c.registers.map fun fv => ⟨W.regs.length, pid, fv.1, fv.2⟩).toList } := by
  have h : RunningOK W pid MD gens := by
    have h := hW.procs pid
    rwa [hp] at h
  -- the ICAS issued, if any, is the process's write, under its ID
  have hissued : ∀ r ∈ p.2.toList, r.old.processId = pid ∧ r.new.processId = pid := by
    intro r hr
    have hmem : r ∈ p.1.inflight := by
      rw [MetaCall.run_inflight hc]
      exact List.mem_append_right _ hr
    rw [← h.processId, ← MetaCall.run_processId hc]
    exact processId_of_mem_inflight hmem
  -- the callback registered, if any, is the process's, under the next number
  have hregs : ∀ q, (((c.registers.map fun fv => (⟨W.regs.length, pid, fv.1, fv.2⟩ :
      Registration)).toList.filter fun g => g.pid = q).map (·.tag)) =
      if q = pid then (c.registers.map fun _ => W.regs.length).toList else [] := by
    intro q
    split_ifs with hq
    · subst hq
      cases c.registers <;> simp
    · cases c.registers <;> simp [Ne.symm hq]
  constructor
  · cases c.registers <;> simp [hW.regs_tags, List.range_succ]
  · exact hW.calls_nodup
  · intro c' hc'
    obtain ⟨g, hg, hpid, hv⟩ := hW.calls_reg c' hc'
    exact ⟨g, getElem?_append_of_some hg, hpid, hv⟩
  · exact hW.calls_acked
  · intro r hr
    rcases List.mem_append.mp hr with hr | hr
    · exact hW.form r hr
    · exact .inl ((hissued r hr).1.trans (hissued r hr).2.symm)
  · exact hW.item_log
  · exact hW.log_takeover
  · exact gensAcked_update hW.gens_acked (hW.gens_acked pid ⟨.running MD, gens⟩ hp)
  · refine procs_update rfl ?_ fun q hq => (hW.procs q).congr
      (filter_append_other fun r hr => (hissued r hr).2 ▸ Ne.symm hq) ?_ rfl ⟨_, rfl⟩
    · -- the running process: its write in flight and its callbacks grow together
      refine ⟨(MetaCall.run_processId hc).trans h.processId, ?_,
        (MetaCall.run_stored hc) ▸ h.gens_last, h.gens, h.gen.run hc, ?_, h.meets.run pid hc⟩
      · show (W.inflight ++ _).filter _ = _
        rw [filter_append_own fun r hr => (hissued r hr).2, MetaCall.run_inflight hc]
        exact congrArg (· ++ _) h.mine
      · show ((W.regs ++ _).filter _).map _ = W.callsOf pid ++ _
        rw [List.filter_append, List.map_append, hregs, if_pos rfl, MetaCall.run_pending hc,
          ← List.append_assoc, ← h.callbacks]
        rfl
    · show ((W.regs ++ _).filter _).map _ = W.regsOf q
      rw [List.filter_append, List.map_append, hregs, if_neg hq, List.append_nil]
      rfl

theorem answer_inv (hW : W.Inv) {pid : ℕ} {MD : Metadata ℕ} {gens : List UInt64} {r : Icas}
    (v : UInt64) (flush : Bool) (hp : W.procs pid = some ⟨.running MD, gens⟩)
    (hr : r ∈ W.inflight) (hpid : r.new.processId = pid) (ha : r ∈ W.acked) :
    (W.answer pid MD gens r v flush).Inv := by
  have h : RunningOK W pid MD gens := by
    have h := hW.procs pid
    rwa [hp] at h
  -- the answer is to the write in progress, the process's only request
  have hrmd : r ∈ MD.inflight := h.mine ▸ List.mem_filter.mpr ⟨hr, by simpa using hpid⟩
  obtain ⟨hw, hrw⟩ := (mem_inflight MD).mp hrmd
  have hmine : W.mine pid = [r] := by rw [h.mine, Metadata.inflight, if_pos hw, hrw]
  -- its callback, if any, is the first one waiting
  have hpend := pending_callbackWritemetadata MD hw
  have hfirst : ∀ t ∈ MD.storing.callbackState.toList, t ∈ MD.pending := fun t ht =>
    hpend ▸ List.mem_append_left _ ht
  have htags : (MD.storing.callbackState.map fun t => (⟨t, pid, MD.storing⟩ : Call)).toList.map
      (·.tag) = MD.storing.callbackState.toList := by
    cases MD.storing.callbackState <;> rfl
  -- the rest of `callback_writemetadata` issues writes under the process's ID
  have hissued : ∀ s ∈ (deleterPoke v flush (callbackWritemetadata MD)).2.toList ++
      (writeIfWanted (deleterPoke v flush (callbackWritemetadata MD)).1).2.toList,
      s.old.processId = pid ∧ s.new.processId = pid := by
    intro s hs
    have hmem : s ∈ (writeIfWanted (deleterPoke v flush (callbackWritemetadata MD)).1).1.inflight := by
      simpa using hs
    simpa [callbackWritemetadata, h.processId] using processId_of_mem_inflight hmem
  constructor
  · exact hW.regs_tags
  · rw [answer_calls, List.map_append, htags]
    refine List.nodup_append.mpr ⟨hW.calls_nodup, by cases MD.storing.callbackState <;> simp, ?_⟩
    rintro a ha b hb rfl
    exact hW.not_mem_calls h (hfirst a hb) ha
  · intro c hc
    rcases List.mem_append.mp hc with hc | hc
    · exact hW.calls_reg c hc
    · -- the callback of the values stored, registered by the process for a value they hold
      obtain ⟨t, ht, rfl⟩ : ∃ t, MD.storing.callbackState = some t ∧
          (⟨t, pid, MD.storing⟩ : Call) = c := by simpa using hc
      obtain ⟨g, hg, hv⟩ := h.meets.storing hw t ht
      obtain ⟨g', hg', hpid'⟩ := hW.reg_of_pending h (hfirst t (by simp [ht]))
      rw [hg, Option.some.injEq] at hg'
      subst hg'
      exact ⟨g, hg, hpid', hv⟩
  · intro c hc
    rcases List.mem_append.mp hc with hc | hc
    · exact hW.calls_acked c hc
    · obtain ⟨t, -, rfl⟩ : ∃ t, MD.storing.callbackState = some t ∧
          (⟨t, pid, MD.storing⟩ : Call) = c := by simpa using hc
      exact ⟨r, ha, by rw [hrw, h.processId]⟩
  · intro s hs
    rw [answer_inflight, List.mem_append] at hs
    rcases hs with hs | hs
    · exact hW.form s (List.mem_of_mem_erase hs)
    · exact .inl ((hissued s hs).1.trans (hissued s hs).2.symm)
  · exact hW.item_log
  · exact hW.log_takeover
  · refine gensAcked_update hW.gens_acked fun g hg => ?_
    rcases List.mem_append.mp hg with hg | hg
    · exact hW.gens_acked pid _ hp g hg
    · rw [List.mem_singleton.mp hg]
      exact ⟨r, ha, hpid, by rw [hrw]; rfl⟩
  · refine procs_update rfl ?_ fun q hq => (hW.procs q).congr ?_ rfl ?_
      ⟨[], (List.append_nil _).symm⟩
    · -- the process goes on from the values now stored, with the writes it issued in flight
      refine ⟨by simp [callbackWritemetadata, h.processId], ?_, by simp [callbackWritemetadata],
        h.gens.append (List.isChain_singleton _) ?_, ((h.gen.callbackWrite hw).deleterPoke v
          flush).writeIfWanted, ?_, (h.meets.callbackWrite.deleterPoke v flush).writeIfWanted⟩
      · show (W.answer pid MD gens r v flush).inflight.filter _ = _
        rw [answer_inflight, filter_append_own fun s hs => (hissued s hs).2,
          ← List.erase_filter]
        change (W.mine pid).erase r ++ _ = _
        rw [hmine, List.erase_cons_head, List.nil_append]
        simp
      · intro x hx y hy
        rw [h.gens_last, Option.mem_some_iff] at hx
        rw [List.head?_cons, Option.mem_some_iff] at hy
        rw [← hx, ← hy]
        exact h.gen.storing hw
      · show ((W.regs.filter _).map _) = ((W.answer pid MD gens r v flush).calls.filter _).map _ ++ _
        have hown : (MD.storing.callbackState.map fun t => (⟨t, pid, MD.storing⟩ : Call)).toList.filter
            (fun c => c.pid = pid) = (MD.storing.callbackState.map fun t => ⟨t, pid, MD.storing⟩).toList := by
          cases MD.storing.callbackState <;> simp
        rw [answer_calls, List.filter_append, List.map_append, hown, htags, pending_writeIfWanted,
          pending_deleterPoke, List.append_assoc, ← hpend]
        exact h.callbacks
    · show (W.answer pid MD gens r v flush).inflight.filter _ = W.inflight.filter _
      rw [answer_inflight, filter_append_other fun s hs => (hissued s hs).2 ▸ Ne.symm hq,
        filter_erase_other (hpid ▸ Ne.symm hq)]
    · show ((W.answer pid MD gens r v flush).calls.filter _).map _ = (W.calls.filter _).map _
      have hother : (MD.storing.callbackState.map fun t => (⟨t, pid, MD.storing⟩ : Call)).toList.filter
          (fun c => c.pid = q) = [] := by
        cases MD.storing.callbackState <;> simp [Ne.symm hq]
      rw [answer_calls, List.filter_append, hother, List.append_nil]

end OWorld

theorem oInit_inv {W : OWorld} (h : oInit W) : W.Inv := by
  obtain ⟨hprocs, -, hinfl, hacked, hlog, hregs, hcalls⟩ := h
  constructor
  · simp [hregs]
  · simp [hcalls]
  · simp [hcalls]
  · simp [hcalls]
  · simp [hinfl]
  · simp [hlog]
  · intro i j e e' _ hi
    simp [hlog] at hi
  · intro pid P hp
    simp [hprocs] at hp
  · intro pid
    rw [hprocs]
    exact ⟨by simp [OWorld.mine, hinfl], by simp [OWorld.regsOf, hregs],
      by simp [OWorld.callsOf, hcalls]⟩

theorem OStep.inv {W W' : OWorld} (hW : W.Inv) (h : OStep W W') : W'.Inv := by
  cases h with
  | read hp => exact OWorld.read_inv hW hp
  | perform hr hI => exact OWorld.perform_inv hW hr hI
  | claimed hp ha => exact OWorld.claimed_inv hW hp ha
  | call hp hc => exact OWorld.call_inv hW hp hc
  | answer hp hr hpid ha => exact OWorld.answer_inv hW _ _ hp hr hpid ha
  | exit hp => exact OWorld.exit_inv hW hp

theorem OWorld.reachable_inv {W : OWorld} (h : Reachable oInit OStep W) : W.Inv :=
  h.invariant (fun _ => oInit_inv) fun _ _ hW hst => hst.inv hW

/-! ## Ownership and linear stores -/

/-- In every reachable state: a successful ICAS of a process after one of another process
follows a claim of the former, made in between on an item it did not hold; each process ID has
at most one ICAS in flight, and a process stored consecutive generations, each by a successful
ICAS under its ID; and the callbacks of state.c were each performed at most once, after a
successful store of values holding what they were registered for, and each callback registered
was performed, still waits in its running process, or its process is dead. -/
theorem reachable_ownership {W : OWorld} (hW : Reachable oInit OStep W) :
    (∀ (i j : ℕ) (e e' : Item × Icas), i < j → W.log[i]? = some e → W.log[j]? = some e' →
      e.2.new.processId ≠ e'.2.new.processId →
      ∃ (t : ℕ) (e'' : Item × Icas), i < t ∧ t ≤ j ∧ W.log[t]? = some e'' ∧
        e''.1.processId ≠ e'.2.new.processId ∧ e''.2 = claimIcas e''.1 e'.2.new.processId) ∧
      (∀ pid, (W.inflight.filter fun r => r.new.processId = pid).length ≤ 1) ∧
      (∀ pid P, W.procs pid = some P → (P.gens.IsChain fun a b => b = a + 1) ∧
        ∀ g ∈ P.gens, ∃ r ∈ W.acked, r.new.processId = pid ∧ r.new.generation = g) ∧
      (W.calls.map (·.tag)).Nodup ∧
      (∀ c ∈ W.calls, ∃ g, W.regs[c.tag]? = some g ∧ g.pid = c.pid ∧
        g.field.get c.stored = g.value ∧ ∃ r ∈ W.acked, r.new = c.stored.encode c.pid) ∧
      ∀ g ∈ W.regs, g.tag ∈ W.calls.map (·.tag) ∨
        (∃ MD gens, W.procs g.pid = some ⟨.running MD, gens⟩ ∧ g.tag ∈ MD.pending) ∨
        ∃ gens, W.procs g.pid = some ⟨.dead, gens⟩ := by
  have hI := OWorld.reachable_inv hW
  refine ⟨hI.log_takeover, fun pid => (hI.procs pid).length_mine_le,
    fun pid P hp => ⟨(hp ▸ hI.procs pid : MProcOK W pid (some P)).gens_chain,
      hI.gens_acked pid P hp⟩, hI.calls_nodup, fun c hc => ?_, fun g hg => ?_⟩
  · obtain ⟨g, hg, hpid, hv⟩ := hI.calls_reg c hc
    exact ⟨g, hg, hpid, hv, hI.calls_acked c hc⟩
  · -- the callback is among those its process registered
    have ht : g.tag ∈ W.regsOf g.pid :=
      List.mem_map.mpr ⟨g, List.mem_filter.mpr ⟨hg, by simp⟩, rfl⟩
    rcases (hI.procs g.pid).mem_regsOf ht with hc | hrun | hdead
    · obtain ⟨c, hc, hct⟩ := List.mem_map.mp hc
      exact .inl (List.mem_map.mpr ⟨c, (List.mem_filter.mp hc).1, hct⟩)
    · exact .inr (.inl hrun)
    · exact .inr (.inr hdead)

/-- After process 1 claimed the item, process 2 read it, claimed it and stored a new `nextblk`
under its own ID: the state after `read 1`, its claim, `read 2`, its claim, the answer to it, a
`metadata_nextblk_write` of 5, and that store. -/
def laterClaimWorld : OWorld where
  procs := Function.update
    (Function.update (fun _ => none) 1 (some ⟨.claiming createmetadata, []⟩)) 2
    (some ⟨.running ⟨⟨0, 0, 0, 0 - 1, none⟩, ⟨5, 0, 1, 0 - 1, some 0⟩, ⟨5, 0, 2, 0 - 1, none⟩, 2,
      false, true, false⟩, [0]⟩)
  item := ⟨5, 0, 1, 0 - 1, 2⟩
  inflight := [claimIcas createmetadata 1, ⟨⟨0, 0, 0, 0 - 1, 2⟩, ⟨5, 0, 1, 0 - 1, 2⟩⟩]
  acked := [claimIcas createmetadata 1, claimIcas ⟨0, 0, 0, 0 - 1, 1⟩ 2,
    ⟨⟨0, 0, 0, 0 - 1, 2⟩, ⟨5, 0, 1, 0 - 1, 2⟩⟩]
  log := [(createmetadata, claimIcas createmetadata 1),
    (⟨0, 0, 0, 0 - 1, 1⟩, claimIcas ⟨0, 0, 0, 0 - 1, 1⟩ 2),
    (⟨0, 0, 0, 0 - 1, 2⟩, ⟨⟨0, 0, 0, 0 - 1, 2⟩, ⟨5, 0, 1, 0 - 1, 2⟩⟩)]
  regs := [⟨0, 2, .nextblk, 5⟩]
  calls := []

theorem reachable_laterClaimWorld : Reachable oInit OStep laterClaimWorld := by
  have h₀ : Reachable oInit OStep ⟨fun _ => none, createmetadata, [], [], [], [], []⟩ :=
    .init ⟨rfl, rfl, rfl, rfl, rfl, rfl, rfl⟩
  have h₁ := h₀.tail (@OStep.read _ 1 rfl)
  have h₂ := h₁.tail (OStep.perform (r := claimIcas createmetadata 1) (I := ⟨0, 0, 0, 0 - 1, 1⟩)
    (by simp) (by decide))
  have h₃ := h₂.tail (@OStep.read _ 2 rfl)
  have h₄ := h₃.tail (OStep.perform (r := claimIcas ⟨0, 0, 0, 0 - 1, 1⟩ 2)
    (I := ⟨0, 0, 0, 0 - 1, 2⟩) (by simp) (by decide))
  have h₅ := h₄.tail (@OStep.claimed _ 2 ⟨0, 0, 0, 0 - 1, 1⟩ _ rfl (by simp))
  have h₆ := h₅.tail (@OStep.call _ 2 _ _ (.nextblkWrite 5) _ rfl rfl)
  have h₇ := h₆.tail (OStep.perform (r := ⟨⟨0, 0, 0, 0 - 1, 2⟩, ⟨5, 0, 1, 0 - 1, 2⟩⟩)
    (I := ⟨5, 0, 1, 0 - 1, 2⟩) (by decide) (by decide))
  convert h₇ using 2
  -- process 2's entry was updated three times; the last update is what it holds
  · simp only [laterClaimWorld, Function.update_idem]
    rfl
  -- the other fields are those the run computes
  all_goals rfl

/-- Process 1's claim succeeded first, and later an ICAS of process 2 storing under its own ID
succeeded too. -/
theorem reachable_laterClaim :
    Reachable oInit OStep laterClaimWorld ∧
      laterClaimWorld.log[0]? = some (createmetadata, claimIcas createmetadata 1) ∧
      ∃ e, laterClaimWorld.log[2]? = some e ∧ e.2.old.processId = 2 ∧ e.2.new.processId = 2 :=
  ⟨reachable_laterClaimWorld, rfl, _, rfl, rfl, rfl⟩

theorem reachable_ownership_laterClaim :
    Reachable oInit OStep laterClaimWorld ∧
    (∀ (i j : ℕ) (e e' : Item × Icas), i < j → laterClaimWorld.log[i]? = some e →
      laterClaimWorld.log[j]? = some e' → e.2.new.processId ≠ e'.2.new.processId →
      ∃ (t : ℕ) (e'' : Item × Icas), i < t ∧ t ≤ j ∧ laterClaimWorld.log[t]? = some e'' ∧
        e''.1.processId ≠ e'.2.new.processId ∧ e''.2 = claimIcas e''.1 e'.2.new.processId) ∧
      (∀ pid, (laterClaimWorld.inflight.filter fun r => r.new.processId = pid).length ≤ 1) ∧
      (∀ pid P, laterClaimWorld.procs pid = some P → (P.gens.IsChain fun a b => b = a + 1) ∧
        ∀ g ∈ P.gens, ∃ r ∈ laterClaimWorld.acked, r.new.processId = pid ∧
          r.new.generation = g) ∧
      (laterClaimWorld.calls.map (·.tag)).Nodup ∧
      (∀ c ∈ laterClaimWorld.calls, ∃ g, laterClaimWorld.regs[c.tag]? = some g ∧ g.pid = c.pid ∧
        g.field.get c.stored = g.value ∧
          ∃ r ∈ laterClaimWorld.acked, r.new = c.stored.encode c.pid) ∧
      ∀ g ∈ laterClaimWorld.regs, g.tag ∈ laterClaimWorld.calls.map (·.tag) ∨
        (∃ MD gens, laterClaimWorld.procs g.pid = some ⟨.running MD, gens⟩ ∧ g.tag ∈ MD.pending) ∨
        ∃ gens, laterClaimWorld.procs g.pid = some ⟨.dead, gens⟩ :=
  ⟨reachable_laterClaimWorld, reachable_ownership reachable_laterClaimWorld⟩

end Kivaloo.LbsDynamodb
