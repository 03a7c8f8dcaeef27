import Kivaloo.Datastruct.Seqptrmap
import Kivaloo.Lib.Transition
import Kivaloo.Lib.ListRel

/-!
# The wire request queue (lib/wire/wire_requestqueue.c)

A request queue sends request packets over one connection and matches response packets to
requests by the ID that the pending-request map, a `seqptrmap`, gave each request.  Every
request's callback must run exactly once.  It runs with the payload of its response, or with
`NULL` if the queue failed or was destroyed first.  A queue fails when writing fails, when
reading fails, and when a response carries an ID with no pending request.  On failure
`failqueue` schedules a failure callback (`failreq`) as an immediate event for each pending
request; a request added to a failed queue gets one at once.

The model's events are the entry points, each run to completion: adding a request
(`wire_requestqueue_add_getbuf` followed by `wire_requestqueue_add_done`), one packet of the
loop of `readpackets`, a failed read, a failed write, `wire_requestqueue_destroy`, and a
scheduled `failreq`.  The world records beside the queue what its callers see: the ID each
request's packet carried, the packets read, and the callbacks run.

`WWorld.reachable_inv` shows the invariant `WWorld.Inv`: at every moment each request added is
pending, scheduled to fail, or called back, exactly one of these.  A callback with a payload
carries the first response with the request's ID.  A callback with `NULL` comes after a failure,
and no response with its ID was read.
-/

namespace Kivaloo.Wire

open Kivaloo.Lib Kivaloo.Datastruct Seqptrmap

/-- `struct wire_requestqueue`, without its reader and writer: the map `reqs` from request IDs to
the pending requests, whether the queue `failed` or was `destroyed`, and whether a wait for a
packet is registered (`read_cookie != NULL`).  A request, the `struct request` holding the
callback and its cookie, is named by its number in the order the requests were added. -/
structure WireRequestqueue where
  reqs : Seqptrmap ℕ
  failed : Bool
  destroyed : Bool
  readCookie : Bool

/-- `wire_requestqueue_init(s)`: nothing pending, not failed, waiting for a packet. -/
def wireRequestqueueInit : WireRequestqueue := ⟨seqptrmapInit, false, false, true⟩

/-- The loop of `failqueue`: while the map is not empty, the request with the least ID gets a
failure callback scheduled and is deleted.  Returns the map and the requests scheduled, in
order; `none` where `assert(R != NULL)` fails. -/
def failqueueLoop (M : Seqptrmap ℕ) (sched : List ℕ) : Option (Seqptrmap ℕ × List ℕ) :=
  match _h : seqptrmapGetmin M with
  | none => some (M, sched)
  | some ID =>
    match seqptrmapGet M ID with
    | some R => failqueueLoop (seqptrmapDelete M ID) (sched ++ [R])
    | none => none
termination_by M.ptrs.length
decreasing_by exact length_delete_getmin _h

/-- `failqueue(Q)`: the queue is marked failed, the wait for a packet is cancelled, the writer is
freed, and each pending request gets a failure callback scheduled.  Returns the queue and the
requests scheduled; `none` where `assert(Q->failed == 0)` fails. -/
def failqueue (Q : WireRequestqueue) : Option (WireRequestqueue × List ℕ) :=
  if Q.failed then none
  else (failqueueLoop Q.reqs []).map fun r => ({ Q with failed := true, readCookie := false, reqs := r.1 }, r.2)

/-- `wire_requestqueue_add_getbuf` followed by `wire_requestqueue_add_done` for the request `R`.
On a failed queue a failure callback is scheduled and the packet goes to a dummy buffer.
Otherwise the request goes into the map, and its packet, with the ID the map gives, goes to the
writer.  Returns the queue, that ID, and the requests scheduled. -/
def wireRequestqueueAdd (Q : WireRequestqueue) (R : ℕ) : WireRequestqueue × Option ℕ × List ℕ :=
  if Q.failed then (Q, none, [R])
  else
    let r := seqptrmapAdd Q.reqs R
    ({ Q with reqs := r.1 }, some r.2, [])

/-- One pass of the loop of `readpackets`, over a packet with the ID `ID` and the payload `buf`.
A packet whose ID has no pending request fails the queue.  Otherwise the request is deleted
from the map and its callback runs with the payload; if the callback returns an error (`ok` is
false), `readpackets` returns without waiting for another packet.  Returns the queue, the
callback run, and the requests scheduled to fail. -/
def readpackets (Q : WireRequestqueue) (ID : ℕ) (buf : List UInt8) (ok : Bool) :
    Option (WireRequestqueue × Option (ℕ × List UInt8) × List ℕ) :=
  match seqptrmapGet Q.reqs ID with
  | none => (failqueue Q).map fun r => (r.1, none, r.2)
  | some R => some ({ Q with reqs := seqptrmapDelete Q.reqs ID, readCookie := ok }, some (R, buf), [])

/-- `wire_requestqueue_destroy(Q)`: marked destroyed, and torn down as on an error unless it
already failed. -/
def wireRequestqueueDestroy (Q : WireRequestqueue) : Option (WireRequestqueue × List ℕ) :=
  let Q := { Q with destroyed := true }
  if Q.failed then some (Q, []) else failqueue Q

/-- The assertions of `wire_requestqueue_free(Q)`: the queue was destroyed and nothing is
pending. -/
def wireRequestqueueFree (Q : WireRequestqueue) : Option Unit :=
  if Q.destroyed = true ∧ seqptrmapGetmin Q.reqs = none then some () else none

/-! ## The operations -/

section Operations

variable {Q Q' : WireRequestqueue} {sched : List ℕ}

/-- `failqueue`'s loop schedules the pending requests in the order of their IDs and empties the
map; the assertion in it never fails. -/
theorem failqueueLoop_eq (M : Seqptrmap ℕ) (sched : List ℕ) :
    failqueueLoop M sched = some (emptyAt M.next, sched ++ M.entries) := by
  fun_induction failqueueLoop M sched with
  | case1 M sched hmin =>
    obtain ⟨offset, ptrs, hhead⟩ := M
    obtain rfl : ptrs = [] := seqptrmapGetmin_eq_none_iff.mp hmin
    simp [emptyAt, Seqptrmap.next, Seqptrmap.entries]
  | case2 M sched ID hmin R hget ih =>
    rw [ih, next_seqptrmapDelete, entries_delete_getmin hmin hget, List.append_assoc,
      List.singleton_append]
  | case3 M sched ID hmin hget =>
    obtain ⟨R, hR⟩ := seqptrmapGet_getmin hmin
    rw [hR] at hget
    cases hget

theorem failqueue_eq_some (h : failqueue Q = some (Q', sched)) :
    Q.failed = false ∧ Q' = ⟨emptyAt Q.reqs.next, true, Q.destroyed, false⟩ ∧
      sched = Q.reqs.entries := by
  unfold failqueue at h
  split_ifs at h with hf
  rw [failqueueLoop_eq, Option.map_some, Option.some.injEq, Prod.mk.injEq] at h
  obtain ⟨rfl, rfl⟩ := h
  exact ⟨by simpa using hf, rfl, List.nil_append _⟩

/-- `wire_requestqueue_destroy` on a queue that has not failed tears it down. -/
theorem wireRequestqueueDestroy_of_not_failed (hf : Q.failed = false) :
    wireRequestqueueDestroy Q = some (⟨emptyAt Q.reqs.next, true, true, false⟩, Q.reqs.entries) := by
  simp [wireRequestqueueDestroy, failqueue, hf, failqueueLoop_eq]

/-- What `readpackets` does with one packet: the callback of the pending request with its ID, or
the failure of the queue. -/
theorem readpackets_eq_some {ID : ℕ} {buf : List UInt8} {ok : Bool}
    {call : Option (ℕ × List UInt8)} (h : readpackets Q ID buf ok = some (Q', call, sched)) :
    (∃ R, seqptrmapGet Q.reqs ID = some R ∧
      Q' = { Q with reqs := seqptrmapDelete Q.reqs ID, readCookie := ok } ∧
      call = some (R, buf) ∧ sched = []) ∨
    (seqptrmapGet Q.reqs ID = none ∧ call = none ∧ failqueue Q = some (Q', sched)) := by
  unfold readpackets at h
  split at h
  · rename_i hget
    obtain ⟨r, hr, heq⟩ := Option.map_eq_some_iff.mp h
    simp only [Prod.mk.injEq] at heq
    obtain ⟨rfl, rfl, rfl⟩ := heq
    exact .inr ⟨hget, rfl, hr⟩
  · rename_i R hget
    simp only [Option.some.injEq, Prod.mk.injEq] at h
    obtain ⟨rfl, rfl, rfl⟩ := h
    exact .inl ⟨R, hget, rfl, rfl, rfl⟩

theorem wireRequestqueueDestroy_eq_some (h : wireRequestqueueDestroy Q = some (Q', sched)) :
    (Q.failed = true ∧ Q' = { Q with destroyed := true } ∧ sched = []) ∨
    (Q.failed = false ∧ Q' = ⟨emptyAt Q.reqs.next, true, true, false⟩ ∧
      sched = Q.reqs.entries) := by
  unfold wireRequestqueueDestroy at h
  dsimp only at h
  split_ifs at h with hf
  · simp only [Option.some.injEq, Prod.mk.injEq] at h
    exact .inl ⟨hf, h.1.symm, h.2.symm⟩
  · obtain ⟨-, rfl, rfl⟩ := failqueue_eq_some h
    exact .inr ⟨by simpa using hf, rfl, rfl⟩

end Operations

/-! ## The queue and its callers -/

/-- The queue with what its callers see: the requests added so far (`0 .. added - 1`), the ID
the packet of each request carried, the requests whose failure callbacks are scheduled and have
not run, the response packets read (ID and payload), and the callbacks run, each with its
payload or with `NULL`. -/
structure WWorld where
  Q : WireRequestqueue
  added : ℕ
  ids : List (ℕ × ℕ)
  deferred : List ℕ
  responses : List (ℕ × List UInt8)
  calls : List (ℕ × Option (List UInt8))

/-- A fresh queue. -/
def wInit (W : WWorld) : Prop := W = ⟨wireRequestqueueInit, 0, [], [], [], []⟩

/-- The events of a queue, each run to completion. -/
inductive WStep : WWorld → WWorld → Prop
  /-- The caller adds the next request. -/
  | add {W : WWorld} {Q : WireRequestqueue} {ID : Option ℕ} {sched : List ℕ} :
      wireRequestqueueAdd W.Q W.added = (Q, ID, sched) →
      WStep W { W with
        Q := Q
        added := W.added + 1
        ids := W.ids ++ (ID.map (W.added, ·)).toList
        deferred := W.deferred ++ sched }
  /-- A response packet is read while `readpackets` waits for one. -/
  | packet {W : WWorld} {ID : ℕ} {buf : List UInt8} {ok : Bool} {Q : WireRequestqueue}
      {call : Option (ℕ × List UInt8)} {sched : List ℕ} :
      W.Q.readCookie = true → readpackets W.Q ID buf ok = some (Q, call, sched) →
      WStep W { W with
        Q := Q
        responses := W.responses ++ [(ID, buf)]
        calls := W.calls ++ (call.map fun c => (c.1, some c.2)).toList
        deferred := W.deferred ++ sched }
  /-- The wait for a packet, or reading one, fails. -/
  | readFail {W : WWorld} {Q : WireRequestqueue} {sched : List ℕ} :
      W.Q.readCookie = true → failqueue W.Q = some (Q, sched) →
      WStep W { W with Q := Q, deferred := W.deferred ++ sched }
  /-- Writing fails: the writer, which exists until the queue fails, calls `failqueue`. -/
  | writeFail {W : WWorld} {Q : WireRequestqueue} {sched : List ℕ} :
      W.Q.failed = false → failqueue W.Q = some (Q, sched) →
      WStep W { W with Q := Q, deferred := W.deferred ++ sched }
  /-- The caller destroys the queue. -/
  | destroy {W : WWorld} {Q : WireRequestqueue} {sched : List ℕ} :
      wireRequestqueueDestroy W.Q = some (Q, sched) →
      WStep W { W with Q := Q, deferred := W.deferred ++ sched }
  /-- A scheduled `failreq` runs the request's callback with `NULL`. -/
  | failreq {W : WWorld} {R : ℕ} :
      R ∈ W.deferred →
      WStep W { W with deferred := W.deferred.erase R, calls := W.calls ++ [(R, none)] }

namespace WWorld

/-- No response read carried the ID of the request `R`. -/
def Unanswered (W : WWorld) (R : ℕ) : Prop :=
  ∀ ID, (R, ID) ∈ W.ids → ∀ e ∈ W.responses, e.1 ≠ ID

/-- The invariant of a queue and its callers. -/
structure Inv (W : WWorld) : Prop where
  /-- Each request added is pending, scheduled to fail, or called back: exactly one of these. -/
  partition : (W.Q.reqs.entries ++ W.deferred ++ W.calls.map (·.1)).Perm (List.range W.added)
  get_ids : ∀ ID R, seqptrmapGet W.Q.reqs ID = some R → (R, ID) ∈ W.ids
  ids_added : ∀ e ∈ W.ids, e.1 < W.added
  ids_next : ∀ e ∈ W.ids, e.2 < W.Q.reqs.next
  ids_req : (W.ids.map (·.1)).Nodup
  /-- No response has been read for a pending request. -/
  pending : ∀ ID R, seqptrmapGet W.Q.reqs ID = some R → ∀ e ∈ W.responses, e.1 ≠ ID
  /-- Until the queue fails, every response read matched a request. -/
  responses_next : W.Q.failed = false → ∀ e ∈ W.responses, e.1 < W.Q.reqs.next
  reading : W.Q.readCookie = true → W.Q.failed = false
  destroyed : W.Q.destroyed = true → W.Q.failed = true
  failed_empty : W.Q.failed = true → W.Q.reqs.ptrs = []
  answered : ∀ R buf, (R, some buf) ∈ W.calls →
    ∃ ID, (R, ID) ∈ W.ids ∧ W.responses.find? (·.1 == ID) = some (ID, buf)
  failed_calls : ∀ R, (R, none) ∈ W.calls → W.Q.failed = true ∧ W.Unanswered R
  deferred : ∀ R ∈ W.deferred, W.Q.failed = true ∧ W.Unanswered R

theorem init_inv {W : WWorld} (h : wInit W) : W.Inv := by
  subst h
  refine ⟨by simp [wireRequestqueueInit], ?_, ?_, ?_, ?_, ?_, ?_, ?_, ?_, ?_, ?_, ?_, ?_⟩ <;>
    simp [wireRequestqueueInit]

variable {W : WWorld}

/-- A request has at most one ID. -/
theorem Inv.id_unique (hW : W.Inv) {R ID ID' : ℕ} (h : (R, ID) ∈ W.ids) (h' : (R, ID') ∈ W.ids) :
    ID = ID' := by
  have := List.inj_on_of_nodup_map hW.ids_req h h' rfl
  simpa using this

/-- A pending request has not been answered. -/
theorem Inv.unanswered_of_get (hW : W.Inv) {ID R : ℕ} (h : seqptrmapGet W.Q.reqs ID = some R) :
    W.Unanswered R := by
  intro ID' hID' e he
  rw [← hW.id_unique (hW.get_ids ID R h) hID']
  exact hW.pending ID R h e he

/-- Until the queue fails, no callback has run with `NULL` and none is scheduled. -/
theorem Inv.no_failures (hW : W.Inv) (hf : W.Q.failed = false) :
    (∀ R, (R, none) ∉ W.calls) ∧ W.deferred = [] := by
  refine ⟨fun R hR => ?_, List.eq_nil_iff_forall_not_mem.mpr fun R hR => ?_⟩
  · simpa [hf] using (hW.failed_calls R hR).1
  · simpa [hf] using (hW.deferred R hR).1

/-- The first response with an ID stays the first as more responses are read. -/
theorem find?_append_of_some {l new : List (ℕ × List UInt8)} {ID : ℕ} {e : ℕ × List UInt8}
    (h : l.find? (·.1 == ID) = some e) : (l ++ new).find? (·.1 == ID) = some e := by
  rw [List.find?_append, h, Option.some_or]

/-! ## One step keeps the invariant -/

/-- The failure of the queue, as `failqueue` does it, after the packets `new` were read, none of
which matched a pending request; `d` is whether the queue is destroyed. -/
theorem Inv.fail (hW : W.Inv) (hf : W.Q.failed = false) (d : Bool)
    (new : List (ℕ × List UInt8)) (hnew : ∀ e ∈ new, seqptrmapGet W.Q.reqs e.1 = none) :
    Inv { W with
      Q := ⟨emptyAt W.Q.reqs.next, true, d, false⟩
      deferred := W.deferred ++ W.Q.reqs.entries
      responses := W.responses ++ new } := by
  obtain ⟨hnone, hdef⟩ := hW.no_failures hf
  refine ⟨?_, by simp, hW.ids_added, by simpa using hW.ids_next, hW.ids_req, by simp,
    by simp, by simp, by simp, fun _ => rfl, ?_, ?_, ?_⟩
  · -- the pending requests are now the scheduled ones
    have hpart := hW.partition
    rw [hdef, List.append_nil] at hpart
    simpa [hdef] using hpart
  · intro R buf hR
    obtain ⟨ID, hID, hfind⟩ := hW.answered R buf hR
    exact ⟨ID, hID, find?_append_of_some hfind⟩
  · intro R hR
    exact absurd hR (hnone R)
  · -- a request scheduled now was pending: no response read, nor any of `new`, carried its ID
    intro R hR
    rw [hdef, List.nil_append] at hR
    obtain ⟨ID, hget⟩ := mem_entries_iff.mp hR
    refine ⟨rfl, fun ID' hID' e he => ?_⟩
    rcases List.mem_append.mp he with he | he
    · exact hW.unanswered_of_get hget ID' hID' e he
    · rw [← hW.id_unique (hW.get_ids ID R hget) hID']
      intro heq
      have hnone := hnew e he
      rw [heq, hget] at hnone
      cases hnone

theorem Inv.failqueue (hW : W.Inv) {Q : WireRequestqueue} {sched : List ℕ}
    (h : failqueue W.Q = some (Q, sched)) : Inv { W with Q := Q, deferred := W.deferred ++ sched } := by
  obtain ⟨hf, rfl, rfl⟩ := failqueue_eq_some h
  have hfail := hW.fail hf W.Q.destroyed [] (by simp)
  rw [List.append_nil] at hfail
  exact hfail

theorem Inv.add (hW : W.Inv) {Q : WireRequestqueue} {ID : Option ℕ} {sched : List ℕ}
    (h : wireRequestqueueAdd W.Q W.added = (Q, ID, sched)) :
    Inv { W with
      Q := Q
      added := W.added + 1
      ids := W.ids ++ (ID.map (W.added, ·)).toList
      deferred := W.deferred ++ sched } := by
  have hids := hW.ids_added
  unfold wireRequestqueueAdd at h
  split_ifs at h with hf
  · -- a failed queue schedules the failure callback at once
    simp only [Prod.mk.injEq] at h
    obtain ⟨rfl, rfl, rfl⟩ := h
    simp only [Option.map_none, Option.toList_none, List.append_nil]
    refine ⟨?_, hW.get_ids, fun e he => Nat.lt_succ_of_lt (hids e he), hW.ids_next,
      hW.ids_req, hW.pending, fun h => (nomatch hf.symm.trans h), hW.reading, hW.destroyed,
      hW.failed_empty, hW.answered, hW.failed_calls, ?_⟩
    · rw [List.range_succ, show W.Q.reqs.entries ++ (W.deferred ++ [W.added]) ++ W.calls.map (·.1) =
        W.Q.reqs.entries ++ W.deferred ++ [W.added] ++ W.calls.map (·.1) by simp]
      exact perm_add _ hW.partition
    · intro R hR
      rcases List.mem_append.mp hR with hR | hR
      · exact hW.deferred R hR
      · -- the new request has no ID, so no response carried it
        rw [List.mem_singleton.mp hR]
        exact ⟨by simpa using hf, fun ID hID => absurd (hids _ hID) (lt_irrefl _)⟩
  · -- the request goes into the map under the next ID
    have hf : W.Q.failed = false := by simpa using hf
    obtain ⟨hnone, hdef⟩ := hW.no_failures hf
    simp only [Prod.mk.injEq] at h
    obtain ⟨rfl, rfl, rfl⟩ := h
    simp only [seqptrmapAdd_snd, Option.map_some, Option.toList_some, List.append_nil]
    refine ⟨?_, ?_, ?_, ?_, ?_, ?_, ?_, hW.reading, hW.destroyed, fun h => (nomatch hf.symm.trans h),
      ?_, ?_, ?_⟩
    · have hadd := perm_add W.added (y := W.deferred ++ W.calls.map (·.1))
        (by simpa using hW.partition : (W.Q.reqs.entries ++ (W.deferred ++ W.calls.map (·.1))).Perm _)
      simpa [List.range_succ] using hadd
    · intro ID R hget
      rw [seqptrmapGet_add] at hget
      split_ifs at hget with hID
      · cases hget
        exact List.mem_append_right _ (by simp [hID])
      · exact List.mem_append_left _ (hW.get_ids ID R hget)
    · intro e he
      rcases List.mem_append.mp he with he | he
      · exact Nat.lt_succ_of_lt (hids e he)
      · simp [List.mem_singleton.mp he]
    · intro e he
      rcases List.mem_append.mp he with he | he
      · simpa using Nat.lt_succ_of_lt (hW.ids_next e he)
      · simp [List.mem_singleton.mp he]
    · rw [List.map_append, List.nodup_append]
      refine ⟨hW.ids_req, by simp, ?_⟩
      intro a ha b hb
      simp only [List.map_cons, List.map_nil, List.mem_singleton] at hb
      obtain ⟨e, he, rfl⟩ := List.mem_map.mp ha
      exact hb ▸ (hids e he).ne
    · -- no response read carried the new ID, since every response matched an earlier one
      intro ID R hget e he
      rw [seqptrmapGet_add] at hget
      split_ifs at hget with hID
      · exact hID ▸ (hW.responses_next hf e he).ne
      · exact hW.pending ID R hget e he
    · intro _ e he
      simpa using Nat.lt_succ_of_lt (hW.responses_next hf e he)
    · intro R buf hR
      obtain ⟨ID, hID, hfind⟩ := hW.answered R buf hR
      exact ⟨ID, List.mem_append_left _ hID, hfind⟩
    · intro R hR
      exact absurd hR (hnone R)
    · intro R hR
      rw [hdef] at hR
      cases hR

/-- The pending request with the packet's ID is called back with its payload. -/
theorem Inv.deliver (hW : W.Inv) (hread : W.Q.readCookie = true) {ID R : ℕ} {buf : List UInt8}
    (ok : Bool) (hget : seqptrmapGet W.Q.reqs ID = some R) :
    Inv { W with
      Q := { W.Q with reqs := seqptrmapDelete W.Q.reqs ID, readCookie := ok }
      responses := W.responses ++ [(ID, buf)]
      calls := W.calls ++ [(R, some buf)] } := by
  have hf := hW.reading hread
  obtain ⟨hnone, hdef⟩ := hW.no_failures hf
  have hlt : ID < W.Q.reqs.next := by
    by_contra hle
    rw [seqptrmapGet_eq_none_of_next_le (not_lt.mp hle)] at hget
    cases hget
  refine ⟨?_, ?_, hW.ids_added, by simpa using hW.ids_next, hW.ids_req, ?_, ?_, fun _ => hf,
    hW.destroyed, fun h => (nomatch hf.symm.trans h), ?_, ?_, ?_⟩
  · -- the request moves from the map to the callbacks run
    have hmove := perm_move (y := W.deferred ++ W.calls.map (·.1))
      (by simpa using hW.partition : (W.Q.reqs.entries ++ (W.deferred ++ W.calls.map (·.1))).Perm _)
      (entries_seqptrmapDelete hget)
    simpa using hmove
  · intro j R' h
    rw [seqptrmapGet_delete] at h
    split_ifs at h
    exact hW.get_ids j R' h
  · intro j R' h e he
    rw [seqptrmapGet_delete] at h
    split_ifs at h with hj
    rcases List.mem_append.mp he with he | he
    · exact hW.pending j R' h e he
    · rw [List.mem_singleton.mp he]
      exact Ne.symm hj
  · intro _ e he
    rcases List.mem_append.mp he with he | he
    · simpa using hW.responses_next hf e he
    · simpa [List.mem_singleton.mp he] using hlt
  · intro R' buf' hR'
    rcases List.mem_append.mp hR' with hR' | hR'
    · obtain ⟨ID', hID', hfind⟩ := hW.answered R' buf' hR'
      exact ⟨ID', hID', find?_append_of_some hfind⟩
    · -- the first response with the request's ID is this one
      obtain ⟨rfl, rfl⟩ : R' = R ∧ buf' = buf := by simpa using hR'
      refine ⟨ID, hW.get_ids ID R' hget, ?_⟩
      have hfirst : W.responses.find? (·.1 == ID) = none :=
        List.find?_eq_none.mpr fun e he => by simpa using hW.pending ID R' hget e he
      rw [List.find?_append, hfirst, Option.none_or]
      simp
  · intro R' hR'
    rcases List.mem_append.mp hR' with hR' | hR'
    · exact absurd hR' (hnone R')
    · simp at hR'
  · intro R' hR'
    rw [hdef] at hR'
    cases hR'

/-- A scheduled failure callback runs. -/
theorem Inv.failreq (hW : W.Inv) {R : ℕ} (hR : R ∈ W.deferred) :
    Inv { W with deferred := W.deferred.erase R, calls := W.calls ++ [(R, none)] } := by
  refine ⟨?_, hW.get_ids, hW.ids_added, hW.ids_next, hW.ids_req, hW.pending, hW.responses_next,
    hW.reading, hW.destroyed, hW.failed_empty, ?_, ?_, ?_⟩
  · -- the request moves from the scheduled ones to the callbacks run
    have hmove : (W.Q.reqs.entries ++ W.deferred).Perm (R :: (W.Q.reqs.entries ++ W.deferred.erase R)) :=
      ((List.perm_cons_erase hR).append_left _).trans List.perm_middle
    simpa using perm_move hW.partition hmove
  · intro R' buf hR'
    rcases List.mem_append.mp hR' with hR' | hR'
    · exact hW.answered R' buf hR'
    · simp at hR'
  · intro R' hR'
    rcases List.mem_append.mp hR' with hR' | hR'
    · exact hW.failed_calls R' hR'
    · obtain rfl : R' = R := by simpa using hR'
      exact hW.deferred R' hR
  · intro R' hR'
    exact hW.deferred R' (List.mem_of_mem_erase hR')

theorem WStep.inv {W W' : WWorld} (hW : W.Inv) (h : WStep W W') : W'.Inv := by
  cases h with
  | add h => exact hW.add h
  | @packet ID buf _ _ _ _ hread h =>
    rcases readpackets_eq_some h with ⟨R, hget, rfl, rfl, rfl⟩ | ⟨hget, rfl, hfq⟩
    · rw [List.append_nil]
      exact hW.deliver hread _ hget
    · -- a packet with no pending request: the queue fails after reading it
      obtain ⟨hf, rfl, rfl⟩ := failqueue_eq_some hfq
      have hfail := hW.fail hf W.Q.destroyed [(ID, buf)] (by simpa using hget)
      rw [Option.map_none, Option.toList_none, List.append_nil]
      exact hfail
  | readFail _ h => exact hW.failqueue h
  | writeFail _ h => exact hW.failqueue h
  | destroy h =>
    rcases wireRequestqueueDestroy_eq_some h with ⟨hf, rfl, rfl⟩ | ⟨hf, rfl, rfl⟩
    · rw [List.append_nil]
      exact { hW with destroyed := fun _ => hf }
    · have hfail := hW.fail hf true [] (by simp)
      rw [List.append_nil] at hfail
      exact hfail
  | failreq hR => exact hW.failreq hR

theorem reachable_inv {W : WWorld} (h : Reachable wInit WStep W) : W.Inv :=
  h.invariant (fun _ => init_inv) fun _ _ hW hst => WStep.inv hW hst

end WWorld

/-! ## Every callback runs exactly once -/

theorem reachable_exactlyOnce {W : WWorld} (h : Reachable wInit WStep W) :
    (W.calls.map (·.1)).Nodup ∧
      (∀ R buf, (R, some buf) ∈ W.calls →
        ∃ ID, (R, ID) ∈ W.ids ∧ W.responses.find? (·.1 == ID) = some (ID, buf)) ∧
      (∀ R, (R, none) ∈ W.calls →
        W.Q.failed = true ∧ ∀ ID, (R, ID) ∈ W.ids → ∀ e ∈ W.responses, e.1 ≠ ID) ∧
      (W.Q.reqs.entries ++ W.deferred ++ W.calls.map (·.1)).Perm (List.range W.added) ∧
      (W.Q.destroyed = true → wireRequestqueueFree W.Q = some () ∧
        (W.deferred = [] → (W.calls.map (·.1)).Perm (List.range W.added))) := by
  have hW := WWorld.reachable_inv h
  have hnodup : (W.Q.reqs.entries ++ W.deferred ++ W.calls.map (·.1)).Nodup :=
    List.nodup_range.perm hW.partition.symm
  refine ⟨hnodup.of_append_right, hW.answered, hW.failed_calls, hW.partition, fun hd => ?_⟩
  -- a destroyed queue has failed, and failing emptied the map
  have hempty := hW.failed_empty (hW.destroyed hd)
  refine ⟨by simp [wireRequestqueueFree, hd, seqptrmapGetmin_eq_none_iff.mpr hempty], fun hdef => ?_⟩
  have hpart := hW.partition
  rwa [show W.Q.reqs.entries = [] by simp [Seqptrmap.entries, hempty], hdef, List.nil_append,
    List.nil_append] at hpart

/-- Request 0 was answered, and request 1 was pending when the queue was destroyed and has had
its failure callback. -/
def destroyedWorld : WWorld :=
  ⟨⟨emptyAt 2, true, true, false⟩, 2, [(0, 0), (1, 1)], [], [(0, [7])], [(0, some [7]), (1, none)]⟩

theorem reachable_destroyedWorld : Reachable wInit WStep destroyedWorld := by
  have h₀ : Reachable wInit WStep ⟨wireRequestqueueInit, 0, [], [], [], []⟩ := .init rfl
  have h₁ := h₀.tail (WStep.add rfl)
  have h₂ := h₁.tail (@WStep.packet _ 0 [7] true _ _ _ rfl rfl)
  have h₃ := h₂.tail (WStep.add rfl)
  have h₄ := h₃.tail (WStep.destroy (wireRequestqueueDestroy_of_not_failed rfl))
  have h₅ := h₄.tail (@WStep.failreq _ 1 (by decide))
  exact h₅

theorem reachable_exactlyOnce_destroyed :
    Reachable wInit WStep destroyedWorld ∧
      ((destroyedWorld.calls.map (·.1)).Nodup ∧
      (∀ R buf, (R, some buf) ∈ destroyedWorld.calls →
        ∃ ID, (R, ID) ∈ destroyedWorld.ids ∧
          destroyedWorld.responses.find? (·.1 == ID) = some (ID, buf)) ∧
      (∀ R, (R, none) ∈ destroyedWorld.calls →
        destroyedWorld.Q.failed = true ∧
          ∀ ID, (R, ID) ∈ destroyedWorld.ids → ∀ e ∈ destroyedWorld.responses, e.1 ≠ ID) ∧
      (destroyedWorld.Q.reqs.entries ++ destroyedWorld.deferred ++
        destroyedWorld.calls.map (·.1)).Perm (List.range destroyedWorld.added) ∧
      (destroyedWorld.Q.destroyed = true → wireRequestqueueFree destroyedWorld.Q = some () ∧
        (destroyedWorld.deferred = [] →
          (destroyedWorld.calls.map (·.1)).Perm (List.range destroyedWorld.added)))) :=
  ⟨reachable_destroyedWorld, reachable_exactlyOnce reachable_destroyedWorld⟩

end Kivaloo.Wire
