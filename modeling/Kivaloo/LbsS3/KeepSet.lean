import Kivaloo.Lib.Transition
import Kivaloo.LbsS3.DeleteToSpec

/-!
# The keep-set invariant of lbs-s3 garbage collection

The system is the deleter of the running lbs-s3 process together with S3.  FREE requests reach
`deleteto_deleteto` with an object number no larger than the least object the B+Tree still
needs; S3 performs the operations in progress in any order, each success calling
`callback_done`; a process may die at any point (a failed operation makes it exit), leaving its
operations in progress to S3, and a new process starts from whatever value DeletedMarker shows
it, S3 being only eventually consistent.

The DESIGN's induction becomes an invariant of the running deleter (`ProcInv`): every DELETE
for a value below its `M` has completed or is in progress.  From it and the step lemma for one
step of DeleteTo, in every reachable state no DELETE was ever issued for an object of the keep
set of the least object still needed, and DeletedMarker was only ever stored with a value `M`
after every DELETE for the values below `M` had completed (`reachable_keepset`).  The
assertions of `callback_done` hold as well (`callbackDone_isSome`).
-/

namespace Kivaloo.LbsS3

open Kivaloo.Lib

/-- The object of a DELETE. -/
def S3Op.deleteOf : S3Op → Option UInt64
  | .delete X => some X
  | _ => none

/-- The value of a PUT of DeletedMarker. -/
def S3Op.markerOf : S3Op → Option UInt64
  | .putMarker M => some M
  | _ => none

@[simp] theorem mem_filterMap_deleteOf {ops : List S3Op} {X : UInt64} :
    X ∈ ops.filterMap S3Op.deleteOf ↔ S3Op.delete X ∈ ops := by
  simp only [List.mem_filterMap]
  constructor
  · rintro ⟨op, hop, hX⟩
    cases op <;> simp_all [S3Op.deleteOf]
  · intro h
    exact ⟨_, h, rfl⟩

@[simp] theorem mem_filterMap_markerOf {ops : List S3Op} {m : UInt64} :
    m ∈ ops.filterMap S3Op.markerOf ↔ S3Op.putMarker m ∈ ops := by
  simp only [List.mem_filterMap]
  constructor
  · rintro ⟨op, hop, hm⟩
    cases op <;> simp_all [S3Op.markerOf]
  · intro h
    exact ⟨_, h, rfl⟩

/-- No value below `0`: the bit loop for `M = 0` deletes nothing. -/
@[simp] theorem deletes_zero : deletes 0 = [] := by decide

/-- The deleter and S3, as far as garbage collection goes. -/
structure S3World where
  /-- The deleter of the running lbs-s3 process, `none` while no process runs. -/
  proc : Option DeleteTo
  /-- The operations the running deleter has in progress. -/
  inflight : List S3Op
  /-- Operations that dead processes left in progress; S3 may still perform them. -/
  orphans : List S3Op
  /-- Every object a DELETE was ever issued for. -/
  deleted : List UInt64
  /-- Every object a DELETE completed for. -/
  completed : List UInt64
  /-- Every value a PUT of DeletedMarker was issued with. -/
  markers : List UInt64
  /-- Every value DeletedMarker was stored with. -/
  stored : List UInt64
  /-- The least object the B+Tree still needs. -/
  need : ℕ

namespace S3World

/-- The deleter goes on in state `D` and issues `ops`. -/
def issue (W : S3World) (D : DeleteTo) (ops : List S3Op) : S3World :=
  { W with
    proc := some D
    inflight := W.inflight ++ ops
    deleted := W.deleted ++ ops.filterMap S3Op.deleteOf
    markers := W.markers ++ ops.filterMap S3Op.markerOf }

/-- What S3 records when it performs `op`. -/
def perform (W : S3World) : S3Op → S3World
  | .delete X => { W with completed := W.completed ++ [X] }
  | .put _ => W
  | .putMarker M => { W with stored := W.stored ++ [M] }

section Issue

variable (W : S3World) (D : DeleteTo) (ops : List S3Op)

@[simp] theorem issue_proc : (W.issue D ops).proc = some D := rfl
@[simp] theorem issue_inflight : (W.issue D ops).inflight = W.inflight ++ ops := rfl
@[simp] theorem issue_orphans : (W.issue D ops).orphans = W.orphans := rfl
@[simp] theorem issue_deleted :
    (W.issue D ops).deleted = W.deleted ++ ops.filterMap S3Op.deleteOf := rfl
@[simp] theorem issue_completed : (W.issue D ops).completed = W.completed := rfl
@[simp] theorem issue_markers :
    (W.issue D ops).markers = W.markers ++ ops.filterMap S3Op.markerOf := rfl
@[simp] theorem issue_stored : (W.issue D ops).stored = W.stored := rfl
@[simp] theorem issue_need : (W.issue D ops).need = W.need := rfl

@[simp] theorem issue_nil : W.issue D [] = { W with proc := some D } := by
  simp [issue]

/-- Issuing replaces the deleter. -/
@[simp] theorem issue_setProc (p : Option DeleteTo) :
    ({ W with proc := p } : S3World).issue D ops = W.issue D ops := rfl

theorem issue_issue (D' : DeleteTo) (ops' : List S3Op) :
    (W.issue D ops).issue D' ops' = W.issue D' (ops ++ ops') := by
  simp [issue, List.filterMap_append, List.append_assoc]

end Issue

section Perform

variable (W : S3World) (op : S3Op)

@[simp] theorem perform_proc : (W.perform op).proc = W.proc := by cases op <;> rfl
@[simp] theorem perform_inflight : (W.perform op).inflight = W.inflight := by cases op <;> rfl
@[simp] theorem perform_orphans : (W.perform op).orphans = W.orphans := by cases op <;> rfl
@[simp] theorem perform_deleted : (W.perform op).deleted = W.deleted := by cases op <;> rfl
@[simp] theorem perform_markers : (W.perform op).markers = W.markers := by cases op <;> rfl
@[simp] theorem perform_need : (W.perform op).need = W.need := by cases op <;> rfl

@[simp] theorem mem_perform_completed {X : UInt64} :
    X ∈ (W.perform op).completed ↔ X ∈ W.completed ∨ op = .delete X := by
  cases op <;> simp [perform, eq_comm]

@[simp] theorem mem_perform_stored {m : UInt64} :
    m ∈ (W.perform op).stored ↔ m ∈ W.stored ∨ op = .putMarker m := by
  cases op <;> simp [perform, eq_comm]

end Perform

end S3World

/-- The steps of the system. -/
inductive S3Step : S3World → S3World → Prop
  /-- A FREE reaches `deleteto_deleteto` with an object the B+Tree no longer needs below. -/
  | deleteto {W : S3World} {D : DeleteTo} {N : UInt64} :
      W.proc = some D → N.toNat ≤ W.need →
      S3Step W (W.issue (deletetoDeleteto D N).1 (deletetoDeleteto D N).2)
  /-- S3 performs an operation in progress and `callback_done` runs. -/
  | done {W : S3World} {D : DeleteTo} {op : S3Op} {r : DeleteTo × List S3Op} :
      W.proc = some D → op ∈ W.inflight → callbackDone D = some r →
      S3Step W (({ W with inflight := W.inflight.erase op }.perform op).issue r.1 r.2)
  /-- The process dies, leaving its operations in progress to S3. -/
  | crash {W : S3World} :
      S3Step W { W with proc := none, inflight := [], orphans := W.orphans ++ W.inflight }
  /-- S3 performs an operation of a dead process. -/
  | orphanDone {W : S3World} {op : S3Op} :
      op ∈ W.orphans → S3Step W ({ W with orphans := W.orphans.erase op }.perform op)
  /-- A new process starts: `deleteto_init` finds no DeletedMarker or one of the values it was
  stored with. -/
  | start {W : S3World} {m : Option UInt64} :
      W.proc = none → (m = none ∨ ∃ v ∈ W.stored, m = some v) →
      S3Step W { W with proc := some (deletetoInit m) }
  /-- `deleteto_stop`. -/
  | stop {W : S3World} {D : DeleteTo} :
      W.proc = some D → S3Step W { W with proc := some (deletetoStop D) }
  /-- The least object the B+Tree needs moves forward. -/
  | advance {W : S3World} {n : ℕ} : W.need ≤ n → S3Step W { W with need := n }

/-- A bucket lbs-s3 has never run on. -/
def s3Init (W : S3World) : Prop :=
  W.proc = none ∧ W.inflight = [] ∧ W.orphans = [] ∧ W.deleted = [] ∧ W.completed = [] ∧
    W.markers = [] ∧ W.stored = []

/-! ## The invariant -/

/-- What holds of the world whatever the deleter's state. -/
structure S3World.Safe (W : S3World) : Prop where
  /-- No DELETE was issued for an object of the keep set of the least object needed. -/
  keep : ∀ X ∈ W.deleted, X.toNat ∉ keepset W.need
  /-- DeletedMarker is PUT with `M` only after the DELETEs for the values below `M` completed. -/
  markers : ∀ m ∈ W.markers, ∀ M' : UInt64, M' < m → ∀ X ∈ deletes M', X ∈ W.completed
  stored : ∀ m ∈ W.stored, m ∈ W.markers
  inflightMarkers : ∀ m, S3Op.putMarker m ∈ W.inflight → m ∈ W.markers
  orphanMarkers : ∀ m, S3Op.putMarker m ∈ W.orphans → m ∈ W.markers

/-- What the running deleter `D` keeps in the world `W`: `N` is within what the B+Tree no
longer needs, `npending` counts the operations in progress and `idle` says there are none, and
every DELETE for a value below `M` has completed or is in progress. -/
structure ProcInv (W : S3World) (D : DeleteTo) : Prop where
  need : D.N.toNat ≤ W.need
  npending : D.npending = W.inflight.length
  idle : D.idle = true ↔ D.npending = 0
  below : ∀ M' : UInt64, M' < D.M → ∀ X ∈ deletes M', X ∈ W.completed ∨ .delete X ∈ W.inflight

/-- The deleter's part survives in a world with the same operations in progress, more completed
DELETEs and a later least object needed. -/
theorem ProcInv.mono {W W' : S3World} {D : DeleteTo} (hD : ProcInv W D) (hneed : W.need ≤ W'.need)
    (hinflight : W'.inflight = W.inflight) (hcompleted : ∀ X ∈ W.completed, X ∈ W'.completed) :
    ProcInv W' D where
  need := hD.need.trans hneed
  npending := hinflight ▸ hD.npending
  idle := hD.idle
  below M' hM' X hX := (hD.below M' hM' X hX).imp (hcompleted X) (fun h => hinflight ▸ h)

/-- The deleter's part does not read which deleter runs. -/
theorem ProcInv.setProc {W : S3World} {D : DeleteTo} (hD : ProcInv W D) (p : Option DeleteTo) :
    ProcInv ({ W with proc := p } : S3World) D :=
  hD.mono le_rfl rfl fun _ h => h

/-- The invariant of the system. -/
structure S3World.Inv (W : S3World) : Prop extends W.Safe where
  idle : W.proc = none → W.inflight = []
  proc : ∀ D, W.proc = some D → ProcInv W D

namespace S3World

variable {W : S3World} {D : DeleteTo}

/-- Issuing operations keeps the world's part of the invariant when the new DELETEs are outside
the keep set and the new PUTs of DeletedMarker come after the DELETEs below their value. -/
theorem Safe.issue (hW : W.Safe) {D : DeleteTo} {ops : List S3Op}
    (hdel : ∀ X, S3Op.delete X ∈ ops → X.toNat ∉ keepset W.need)
    (hmark : ∀ m, S3Op.putMarker m ∈ ops → ∀ M' : UInt64, M' < m → ∀ X ∈ deletes M',
      X ∈ W.completed) :
    (W.issue D ops).Safe where
  keep := by
    simp only [issue_deleted, issue_need, List.mem_append, mem_filterMap_deleteOf]
    rintro X (hX | hX)
    · exact hW.keep X hX
    · exact hdel X hX
  markers := by
    simp only [issue_markers, issue_completed, List.mem_append, mem_filterMap_markerOf]
    rintro m (hm | hm)
    · exact hW.markers m hm
    · exact hmark m hm
  stored := fun m hm => List.mem_append_left _ (hW.stored m hm)
  inflightMarkers := by
    simp only [issue_inflight, issue_markers, List.mem_append, mem_filterMap_markerOf]
    rintro m (hm | hm)
    · exact Or.inl (hW.inflightMarkers m hm)
    · exact Or.inr hm
  orphanMarkers := fun m hm => List.mem_append_left _ (hW.orphanMarkers m hm)

/-- The invariant from the world's part and the running deleter's. -/
theorem Inv.of_proc (hW : W.Safe) (hD : W.proc = some D) (hP : ProcInv W D) : W.Inv where
  toSafe := hW
  idle := by simp [hD]
  proc := by
    intro D' hD'
    rw [hD, Option.some.injEq] at hD'
    exact hD' ▸ hP

/-- The running deleter, read off the invariant. -/
theorem Inv.procInv (hW : W.Inv) (hD : W.proc = some D) : ProcInv W D := hW.proc D hD

/-- The world's part does not read the deleter. -/
theorem Safe.setProc (hW : W.Safe) (p : Option DeleteTo) : ({ W with proc := p } : S3World).Safe :=
  ⟨hW.keep, hW.markers, hW.stored, hW.inflightMarkers, hW.orphanMarkers⟩

/-- S3 forgetting an operation in progress keeps the world's part. -/
theorem Safe.eraseInflight (hW : W.Safe) (op : S3Op) :
    ({ W with inflight := W.inflight.erase op } : S3World).Safe :=
  ⟨hW.keep, hW.markers, hW.stored, fun m hm => hW.inflightMarkers m (List.mem_of_mem_erase hm),
    hW.orphanMarkers⟩

/-- S3 forgetting an operation of a dead process keeps the world's part. -/
theorem Safe.eraseOrphans (hW : W.Safe) (op : S3Op) :
    ({ W with orphans := W.orphans.erase op } : S3World).Safe :=
  ⟨hW.keep, hW.markers, hW.stored, hW.inflightMarkers,
    fun m hm => hW.orphanMarkers m (List.mem_of_mem_erase hm)⟩

/-- S3 performing an operation keeps the world's part when a PUT of DeletedMarker it performs
was issued: completed DELETEs only grow. -/
theorem Safe.perform (hW : W.Safe) {op : S3Op} (hop : ∀ m, op = .putMarker m → m ∈ W.markers) :
    (W.perform op).Safe where
  keep := by simpa using hW.keep
  markers := by
    simp only [perform_markers, mem_perform_completed]
    exact fun m hm M' hM' X hX => Or.inl (hW.markers m hm M' hM' X hX)
  stored := by
    simp only [mem_perform_stored, perform_markers]
    rintro m (hm | hm)
    · exact hW.stored m hm
    · exact hop m hm
  inflightMarkers := by simpa using hW.inflightMarkers
  orphanMarkers := by simpa using hW.orphanMarkers

/-- The world with the deleter replaced by `D`, which keeps the deleter's invariant. -/
theorem Inv.setProc (hW : W.Inv) (hD : ProcInv W D) : ({ W with proc := some D } : S3World).Inv :=
  .of_proc (hW.toSafe.setProc _) rfl (hD.setProc _)

end S3World

/-! ## A round of `poke` -/

section Round

open S3World

variable {W : S3World} {D : DeleteTo}

/-- A round starts only when the deleter is idle. -/
theorem idle_of_not_poke_guard (h : ¬(D.shuttingdown = true ∨ D.idle = false)) : D.idle = true := by
  simp only [not_or, Bool.not_eq_false] at h
  exact h.2

/-- The start of a round keeps the invariant: DeletedMarker is stored only when no operation is
in progress, so every DELETE below `M` has completed. -/
theorem storeMarker_inv (hW : W.Inv) (hD : W.proc = some D) (hidle : D.idle = true) :
    (W.issue (storeMarker D).1 (storeMarker D).2).Inv := by
  have hP := hW.procInv hD
  unfold storeMarker
  split_ifs with hstore
  · -- nothing is in progress, so the DELETEs below `M` are complete
    have hnil : W.inflight = [] := List.length_eq_zero_iff.mp (hP.npending ▸ hP.idle.mp hidle)
    have hdone : ∀ M' : UInt64, M' < D.M → ∀ X ∈ deletes M', X ∈ W.completed := by
      intro M' hM' X hX
      simpa [hnil] using hP.below M' hM' X hX
    refine .of_proc (hW.toSafe.issue (by simp) ?_) rfl ⟨hP.need, ?_, by simp, ?_⟩
    · simp only [List.mem_singleton, S3Op.putMarker.injEq]
      rintro m rfl
      exact hdone
    · simp [hP.npending]
    · intro M' hM' X hX
      exact Or.inl (hdone M' hM' X hX)
  · simpa [hD] using hW.setProc hP

/-- One step of DeleteTo below `N` keeps the invariant: what it deletes is outside the keep set
of `M + 1`, which contains that of the least object needed. -/
theorem deleteStep_inv (hW : W.Inv) (hD : W.proc = some D) (hlt : D.M < D.N) :
    (W.issue (deleteStep D).1 (deleteStep D).2).Inv := by
  have hP := hW.procInv hD
  have hMN : D.M.toNat < D.N.toNat := UInt64.lt_iff_toNat_lt.mp hlt
  have hsucc := toNat_add_one_of_lt hlt
  have hN := D.N.toNat_lt
  have hneed := hP.need
  refine .of_proc (hW.toSafe.issue ?_ ?_) rfl ⟨by simpa using hneed, ?_, ?_, ?_⟩
  · -- the new DELETEs are outside `KEEPSET(M + 1) ⊇ KEEPSET(need)`
    intro X hX hkeep
    rw [delete_mem_deleteStep_iff] at hX
    exact deletes_not_mem_keepset (by omega) hX (keepset_anti (by omega) hkeep)
  · intro m hm
    exact absurd hm putMarker_not_mem_deleteStep
  · simp [deleteStep, hP.npending]
  · simp only [deleteStep, Bool.and_eq_true, List.isEmpty_iff, hP.idle]
    constructor
    · rintro ⟨h0, hops⟩
      rw [h0, hops, List.length_nil]
    · intro h
      exact ⟨by omega, List.length_eq_zero_iff.mp (by omega)⟩
  · -- below `M + 1`: below `M`, or `M` itself, whose DELETEs were just issued
    intro M' hM' X hX
    rw [deleteStep_M, UInt64.lt_iff_toNat_lt, hsucc] at hM'
    simp only [issue_completed, issue_inflight, List.mem_append]
    rcases Nat.lt_succ_iff_lt_or_eq.mp hM' with hlt' | heq
    · rcases hP.below M' (UInt64.lt_iff_toNat_lt.mpr hlt') X hX with h | h
      · exact Or.inl h
      · exact Or.inr (Or.inl h)
    · rw [UInt64.toNat_inj.mp heq] at hX
      exact Or.inr (Or.inr (delete_mem_deleteStep_iff.mpr hX))

/-- A whole round of `poke` keeps the invariant; the induction follows the recursion of
`poke`, a round going on in place while its steps issue nothing. -/
theorem poke_inv (D : DeleteTo) :
    ∀ W : S3World, W.Inv → W.proc = some D → (W.issue (poke D).1 (poke D).2).Inv := by
  induction D using poke.induct with
  | case1 D hguard =>
    intro W hW hD
    rw [poke, if_pos hguard, issue_nil]
    simpa [hD] using hW.setProc (hW.procInv hD)
  | case2 D hguard s hstop =>
    intro W hW hD
    rw [poke, if_neg hguard, if_pos hstop]
    exact storeMarker_inv hW hD (idle_of_not_poke_guard hguard)
  | case3 D hguard s hstop t hcont ih =>
    intro W hW hD
    rw [poke, if_neg hguard, if_neg hstop, if_pos hcont]
    have hs := storeMarker_inv hW hD (idle_of_not_poke_guard hguard)
    have ht := deleteStep_inv hs (issue_proc _ _ _) (UInt64.not_le.mp hstop)
    have hr := ih _ ht (issue_proc _ _ _)
    rw [issue_issue, issue_issue] at hr
    dsimp only
    rwa [List.append_assoc]
  | case4 D hguard s hstop t hcont =>
    intro W hW hD
    rw [poke, if_neg hguard, if_neg hstop, if_neg hcont]
    have hs := storeMarker_inv hW hD (idle_of_not_poke_guard hguard)
    have ht := deleteStep_inv hs (issue_proc _ _ _) (UInt64.not_le.mp hstop)
    rwa [issue_issue] at ht

end Round

/-! ## Every step -/

section Steps

open S3World

variable {W : S3World} {D : DeleteTo}

/-- Raising `N` to an object the B+Tree no longer needs below keeps the invariant, and so does
the round that follows. -/
theorem deletetoDeleteto_inv (hW : W.Inv) (hD : W.proc = some D) {N : UInt64}
    (hN : N.toNat ≤ W.need) :
    (W.issue (deletetoDeleteto D N).1 (deletetoDeleteto D N).2).Inv := by
  have hP := hW.procInv hD
  have hP' : ProcInv W (if D.N < N then { D with N := N } else D) := by
    split_ifs
    · exact ⟨hN, hP.npending, hP.idle, hP.below⟩
    · exact hP
  have h := poke_inv _ _ (hW.setProc hP') rfl
  rwa [issue_setProc] at h

/-- S3 performing an operation in progress and `callback_done` running keep the invariant:
the last operation of a round starts the next one. -/
theorem done_inv (hW : W.Inv) (hD : W.proc = some D) {op : S3Op} (hop : op ∈ W.inflight)
    {r : DeleteTo × List S3Op} (hr : callbackDone D = some r) :
    (({ W with inflight := W.inflight.erase op }.perform op).issue r.1 r.2).Inv := by
  have hP := hW.procInv hD
  set W₁ := ({ W with inflight := W.inflight.erase op } : S3World).perform op with hW₁
  have hS : W₁.Safe := (hW.toSafe.eraseInflight op).perform fun m hm =>
    hW.inflightMarkers m (hm ▸ hop)
  have hlen : W₁.inflight.length = D.npending - 1 := by
    simp [hW₁, List.length_erase_of_mem hop, hP.npending]
  -- a DELETE in progress has completed or is still in progress
  have hbelow : ∀ M' : UInt64, M' < D.M → ∀ X ∈ deletes M',
      X ∈ W₁.completed ∨ .delete X ∈ W₁.inflight := by
    intro M' hM' X hX
    simp only [hW₁, mem_perform_completed, perform_inflight]
    rcases hP.below M' hM' X hX with h | h
    · exact Or.inl (Or.inl h)
    · by_cases hop' : op = .delete X
      · exact Or.inl (Or.inr hop')
      · exact Or.inr ((List.mem_erase_of_ne (Ne.symm hop')).mpr h)
  unfold callbackDone at hr
  split_ifs at hr with hcond
  rw [← Option.some.inj hr]
  split_ifs with hzero
  · -- the round is over: a new one starts
    have hP₁ : ProcInv W₁ { D with npending := D.npending - 1, idle := true } :=
      ⟨by simpa [hW₁] using hP.need, by simpa using hlen.symm, by simpa using hzero,
        hbelow⟩
    have h := poke_inv _ _ (Inv.of_proc (hS.setProc _) rfl (hP₁.setProc _)) rfl
    rwa [issue_setProc] at h
  · -- operations are still in progress
    rw [issue_nil]
    refine .of_proc (hS.setProc _) rfl ⟨by simpa [hW₁] using hP.need, by simpa using hlen.symm,
      ?_, hbelow⟩
    simp only [hcond.1, Bool.false_eq_true, false_iff]
    exact hzero

/-- The death of the process keeps the invariant: its PUTs of DeletedMarker are left to S3. -/
theorem crash_inv (hW : W.Inv) :
    ({ W with proc := none, inflight := [], orphans := W.orphans ++ W.inflight } : S3World).Inv where
  keep := hW.keep
  markers := hW.markers
  stored := hW.stored
  inflightMarkers := by simp
  orphanMarkers := by
    simp only [List.mem_append]
    rintro m (hm | hm)
    · exact hW.orphanMarkers m hm
    · exact hW.inflightMarkers m hm
  idle _ := rfl
  proc := by simp

/-- S3 performing an operation of a dead process keeps the invariant. -/
theorem orphanDone_inv (hW : W.Inv) {op : S3Op} (hop : op ∈ W.orphans) :
    ({ W with orphans := W.orphans.erase op }.perform op).Inv where
  toSafe := (hW.toSafe.eraseOrphans op).perform fun m hm => hW.orphanMarkers m (hm ▸ hop)
  idle := by simpa using hW.idle
  proc _ hD := by
    rw [perform_proc] at hD
    exact (hW.procInv hD).mono (by simp) (by simp) (by simp +contextual)

/-- A new process keeps the invariant: it starts from `1`, below which nothing is deleted, or
from a value DeletedMarker was stored with, whose DELETEs below have all completed. -/
theorem start_inv (hW : W.Inv) (hnone : W.proc = none) {m : Option UInt64}
    (hm : m = none ∨ ∃ v ∈ W.stored, m = some v) :
    ({ W with proc := some (deletetoInit m) } : S3World).Inv := by
  have hnil := hW.idle hnone
  refine hW.setProc ⟨Nat.zero_le _, by simp [deletetoInit, hnil], by simp [deletetoInit], ?_⟩
  intro M' hM' X hX
  left
  rcases hm with rfl | ⟨v, hv, rfl⟩
  · -- below `1` is only `0`
    have h0 : M' = 0 := by
      rw [UInt64.lt_iff_toNat_lt] at hM'
      exact UInt64.toNat_inj.mp (by simpa [deletetoInit] using hM')
    rw [h0, deletes_zero] at hX
    exact absurd hX List.not_mem_nil
  · exact hW.markers v (hW.stored v hv) M' hM' X hX

/-- `deleteto_stop` keeps the invariant. -/
theorem stop_inv (hW : W.Inv) (hD : W.proc = some D) :
    ({ W with proc := some (deletetoStop D) } : S3World).Inv :=
  have hP := hW.procInv hD
  hW.setProc ⟨hP.need, hP.npending, hP.idle, hP.below⟩

/-- The least object needed moving forward keeps the invariant: keep sets shrink. -/
theorem advance_inv (hW : W.Inv) {n : ℕ} (hn : W.need ≤ n) :
    ({ W with need := n } : S3World).Inv where
  keep X hX hkeep := hW.keep X hX (keepset_anti hn hkeep)
  markers := hW.markers
  stored := hW.stored
  inflightMarkers := hW.inflightMarkers
  orphanMarkers := hW.orphanMarkers
  idle := hW.idle
  proc _ hD := (hW.procInv hD).mono hn rfl fun _ h => h

/-- A bucket lbs-s3 has never run on satisfies the invariant. -/
theorem s3Init_inv (h : s3Init W) : W.Inv := by
  obtain ⟨hproc, hinflight, horphans, hdeleted, -, hmarkers, hstored⟩ := h
  refine ⟨⟨?_, ?_, ?_, ?_, ?_⟩, fun _ => hinflight, ?_⟩ <;> simp [*]

/-- Every step keeps the invariant. -/
theorem S3Step.inv {W W' : S3World} (hW : W.Inv) (h : S3Step W W') : W'.Inv := by
  cases h with
  | deleteto hD hN => exact deletetoDeleteto_inv hW hD hN
  | done hD hop hr => exact done_inv hW hD hop hr
  | crash => exact crash_inv hW
  | orphanDone hop => exact orphanDone_inv hW hop
  | start hnone hm => exact start_inv hW hnone hm
  | stop hD => exact stop_inv hW hD
  | advance hn => exact advance_inv hW hn

/-- The invariant holds in every reachable state. -/
theorem reachable_inv (h : Reachable s3Init S3Step W) : W.Inv :=
  h.invariant (fun _ h₀ => s3Init_inv h₀) (fun _ _ hI hs => S3Step.inv hI hs)

/-- The assertions of `callback_done` never fail: an operation in progress finds the deleter
busy with a positive count. -/
theorem callbackDone_isSome (h : Reachable s3Init S3Step W) (hD : W.proc = some D) {op : S3Op}
    (hop : op ∈ W.inflight) : (callbackDone D).isSome := by
  have hP := (reachable_inv h).procInv hD
  have hpos : 0 < D.npending := hP.npending ▸ List.length_pos_of_mem hop
  have hidle : D.idle = false := by
    cases hi : D.idle
    · rfl
    · exact absurd (hP.idle.mp hi) (by omega)
  simp [callbackDone, hidle, hpos]

end Steps

/-- The keep-set invariant: no DELETE was ever issued for an object in the keep set of the least
object the B+Tree still needs, and DeletedMarker was only ever stored with a value `M` after all
DELETEs for values below `M` completed. -/
theorem reachable_keepset {W : S3World} (hW : Reachable s3Init S3Step W) :
    (∀ X ∈ W.deleted, X.toNat ∉ keepset W.need) ∧
      ∀ m ∈ W.stored, ∀ M' : UInt64, M' < m → ∀ X ∈ deletes M', X ∈ W.completed := by
  have hI := reachable_inv hW
  exact ⟨hI.keep, fun m hm => hI.markers m (hI.stored m hm)⟩

/-! ## A run up to the first DeletedMarker -/

/-- The scheduler that lets S3 perform the oldest operation in progress, after which
`callback_done` runs. -/
def S3World.completeFirst (W : S3World) : Option S3World :=
  match W.proc, W.inflight with
  | some D, op :: _ =>
    (callbackDone D).map fun r => ({ W with inflight := W.inflight.erase op }.perform op).issue r.1 r.2
  | _, _ => none

theorem S3Step.of_completeFirst {W W' : S3World} (h : W.completeFirst = some W') : S3Step W W' := by
  unfold S3World.completeFirst at h
  split at h
  · rename_i D op ops hD hops
    obtain ⟨r, hr, rfl⟩ := Option.map_eq_some_iff.mp h
    exact .done hD (by simp [hops]) hr
  · cases h

/-- A process started on a bucket lbs-s3 has never run on, told by a FREE that the B+Tree needs
objects from `257` on. -/
def freedWorld : S3World :=
  (⟨some (deletetoInit none), [], [], [], [], [], [], 257⟩ : S3World).issue
    (deletetoDeleteto (deletetoInit none) 257).1 (deletetoDeleteto (deletetoInit none) 257).2

/-- `freedWorld` after S3 has performed the operations in progress, oldest first, for 257
moves: the DELETEs and empty PUTs for `M = 1 .. 256`, and the PUT of DeletedMarker with `256`
at the start of the round for `256`. -/
def markerWorld : S3World := drive S3World.completeFirst 257 freedWorld

theorem reachable_markerWorld : Reachable s3Init S3Step markerWorld := by
  have h₀ : Reachable s3Init S3Step (⟨none, [], [], [], [], [], [], 257⟩ : S3World) :=
    .init ⟨rfl, rfl, rfl, rfl, rfl, rfl, rfl⟩
  have h₁ := h₀.tail (.start (m := none) rfl (Or.inl rfl))
  have h₂ : Reachable s3Init S3Step freedWorld := h₁.tail (.deleteto (N := 257) rfl (by decide))
  exact Reachable.driven (fun _ _ => S3Step.of_completeFirst) 257 h₂

/-- The run to `markerWorld` completes all 247 DELETEs it issues and stores DeletedMarker with
`256`, with nothing left in progress. -/
theorem markerWorld_eq :
    256 ∈ markerWorld.stored ∧ markerWorld.inflight = [] ∧ markerWorld.deleted.length = 247 ∧
      markerWorld.completed.length = 247 ∧ markerWorld.need = 257 := by
  decide +kernel

/-- In `markerWorld` the keep set of `257` is untouched, and the DELETEs below `256` have all
completed. -/
theorem reachable_keepset_markerWorld :
    (256 ∈ markerWorld.stored ∧ markerWorld.inflight = [] ∧ markerWorld.deleted.length = 247 ∧
        markerWorld.completed.length = 247 ∧ markerWorld.need = 257) ∧
      (∀ X ∈ markerWorld.deleted, X.toNat ∉ keepset markerWorld.need) ∧
        ∀ m ∈ markerWorld.stored, ∀ M' : UInt64, M' < m → ∀ X ∈ deletes M', X ∈ markerWorld.completed :=
  ⟨markerWorld_eq, reachable_keepset reachable_markerWorld⟩

end Kivaloo.LbsS3
