import Kivaloo.Lib.Transition

/-!
# The S3 request queue (lib/s3/s3_request_queue.c)

Requests wait in a pending list and are launched from its head, one per `poke`, while fewer
than `reqsip_max` are in progress.  A request whose HTTP connection breaks, or that is answered
with 500 or 503, goes back to the tail of the pending list; any other response goes to the
request's callback.  `s3_request_queue_flush`, which the s3 daemon calls when its client
connection dies (`dropconnection` in s3/dispatch.c) before `main` reuses the queue for the next
connection, frees both lists and cancels the requests in progress, but leaves `reqsip` as it was.

Requests are named by numbers; their parameters, the server pool, the keys and the log file are
left out.  Picking a server address can fail (`addr = false`), and so can the assertion of
`poke`; either makes the operation fail.

In every reachable state `reqsip` is the number of requests in progress plus the number of
requests a flush cancelled (`reachable_inv`), so the capacity a flush takes is never given back:
after a flush with a request in progress on a queue of one connection, a request queued is never
launched (`flush_keeps_reqsip`).
-/

namespace Kivaloo.S3

open Kivaloo.Lib

/-- `struct s3_request_queue`, with the requests named by numbers. -/
structure S3RequestQueue where
  reqsipMax : ℕ
  reqsip : ℕ
  /-- `reqs_queued_head` to `reqs_queued_tail`. -/
  queued : List ℕ
  /-- `reqs_ip_head` to `reqs_ip_tail`. -/
  ip : List ℕ
deriving DecidableEq, Repr

/-- `s3_request_queue_init(..., conns)`: nothing queued or in progress. -/
def s3RequestQueueInit (conns : ℕ) : S3RequestQueue := ⟨conns, 0, [], []⟩

/-- `poke(Q)`: launch the request at the head of the pending list unless none is pending or
`reqsip_max` are in progress.  `none` when no server address is available (`addr = false`) or
the assertion `reqsip < reqsip_max` fails. -/
def poke (addr : Bool) (Q : S3RequestQueue) : Option S3RequestQueue :=
  match Q.queued with
  | [] => some Q
  | R :: rest =>
    if Q.reqsip = Q.reqsipMax then some Q
    else if Q.reqsip < Q.reqsipMax ∧ addr then
      some { Q with reqsip := Q.reqsip + 1, queued := rest, ip := Q.ip ++ [R] }
    else none

/-- `s3_request_queue(Q, request, ...)`: add the request to the tail of the pending list and
poke.  `none` (the request is taken back and -1 returned) when the poke fails. -/
def s3RequestQueue (addr : Bool) (R : ℕ) (Q : S3RequestQueue) : Option S3RequestQueue :=
  poke addr { Q with queued := Q.queued ++ [R] }

/-- Whether `callback_reqdone` retries a request: the connection failed (`res == NULL`) or the
status is 500 or 503. -/
def retries : Option ℕ → Bool
  | none => true
  | some status => status = 500 || status = 503

/-- `callback_reqdone(R, res)`: the request leaves the in-progress list; a request to retry goes
back to the tail of the pending list, any other is answered through its callback (returned with
its status); then the queue is poked.  `none` when the poke fails. -/
def callbackReqdone (addr : Bool) (R : ℕ) (res : Option ℕ) (Q : S3RequestQueue) :
    Option (S3RequestQueue × Option (ℕ × ℕ)) :=
  let Q := { Q with reqsip := Q.reqsip - 1, ip := Q.ip.erase R }
  match res with
  | some status =>
    if retries (some status) then (poke addr { Q with queued := Q.queued ++ [R] }).map (·, none)
    else (poke addr Q).map (·, some (R, status))
  | none => (poke addr { Q with queued := Q.queued ++ [R] }).map (·, none)

/-- `s3_request_queue_flush(Q)`: both lists are freed, the requests in progress cancelled;
`reqsip` is not touched. -/
def s3RequestQueueFlush (Q : S3RequestQueue) : S3RequestQueue := { Q with queued := [], ip := [] }

/-! ## The queue as a system -/

/-- The queue with ghost records: the requests queued so far, the callbacks performed with the
status they were given, and the number of requests in progress that flushes cancelled. -/
structure QWorld where
  Q : S3RequestQueue
  added : List ℕ
  calls : List (ℕ × ℕ)
  dropped : ℕ

/-- The operations on the queue that succeed.  A failed operation leaves the queue as it was
(`s3_request_queue`) or ends the daemon (`callback_reqdone`). -/
inductive QStep : QWorld → QWorld → Prop
  /-- `s3_request_queue` with a new request. -/
  | queue {W : QWorld} {addr : Bool} {R : ℕ} {Q : S3RequestQueue} :
      R ∉ W.added → s3RequestQueue addr R W.Q = some Q →
      QStep W { W with Q := Q, added := W.added ++ [R] }
  /-- The HTTP request of a request in progress completes with the response `res`. -/
  | done {W : QWorld} {addr : Bool} {R : ℕ} {res : Option ℕ} {Q : S3RequestQueue}
      {c : Option (ℕ × ℕ)} :
      R ∈ W.Q.ip → callbackReqdone addr R res W.Q = some (Q, c) →
      QStep W { W with Q := Q, calls := W.calls ++ c.toList }
  /-- The client connection dies: `dropconnection` flushes the queue. -/
  | flush {W : QWorld} :
      QStep W { W with Q := s3RequestQueueFlush W.Q, dropped := W.dropped + W.Q.ip.length }

/-- A fresh queue of `conns` connections. -/
def qInit (conns : ℕ) (W : QWorld) : Prop :=
  W = ⟨s3RequestQueueInit conns, [], [], 0⟩

/-! ## What each operation does -/

section Operations

variable {addr : Bool} {Q Q' : S3RequestQueue}

/-- `poke` does nothing, or launches the head of the pending list below the limit. -/
theorem poke_eq_some (h : poke addr Q = some Q') :
    Q' = Q ∧ (Q.queued = [] ∨ Q.reqsip = Q.reqsipMax) ∨
      ∃ R rest, Q.queued = R :: rest ∧ Q.reqsip < Q.reqsipMax ∧
        Q' = { Q with reqsip := Q.reqsip + 1, queued := rest, ip := Q.ip ++ [R] } := by
  unfold poke at h
  split at h
  · exact .inl ⟨(Option.some.inj h).symm, .inl ‹_›⟩
  · rename_i R rest hq
    split_ifs at h with hmax hlt
    · exact .inl ⟨(Option.some.inj h).symm, .inr hmax⟩
    · exact .inr ⟨R, rest, hq, hlt.1, (Option.some.inj h).symm⟩

@[simp] theorem poke_reqsipMax (h : poke addr Q = some Q') : Q'.reqsipMax = Q.reqsipMax := by
  rcases poke_eq_some h with ⟨rfl, -⟩ | ⟨R, rest, -, -, rfl⟩ <;> rfl

/-- A launch moves a request from one list to the other and counts it. -/
theorem poke_lists (h : poke addr Q = some Q') :
    (Q'.queued ++ Q'.ip).Perm (Q.queued ++ Q.ip) ∧
      Q'.reqsip + Q.ip.length = Q.reqsip + Q'.ip.length := by
  rcases poke_eq_some h with ⟨rfl, -⟩ | ⟨R, rest, hq, -, rfl⟩
  · exact ⟨List.Perm.refl _, rfl⟩
  · refine ⟨?_, by simp; omega⟩
    rw [hq, List.cons_append]
    show (rest ++ (Q.ip ++ [R])).Perm _
    rw [← List.append_assoc]
    exact List.perm_append_singleton _ _

theorem poke_le_max (h : poke addr Q = some Q') (hle : Q.reqsip ≤ Q.reqsipMax) :
    Q'.reqsip ≤ Q'.reqsipMax := by
  rcases poke_eq_some h with ⟨rfl, -⟩ | ⟨R, rest, -, hlt, rfl⟩
  · exact hle
  · exact hlt

/-- A poke that may have to launch one request leaves requests pending only at the limit. -/
theorem poke_busy (h : poke addr Q = some Q') (hle : Q.reqsip ≤ Q.reqsipMax)
    (hpre : Q.queued.tail ≠ [] → Q.reqsipMax ≤ Q.reqsip + 1) :
    Q'.queued ≠ [] → Q'.reqsip = Q'.reqsipMax := by
  intro hne
  rcases poke_eq_some h with ⟨rfl, hq | hmax⟩ | ⟨R, rest, hq, hlt, rfl⟩
  · exact absurd hq hne
  · exact hmax
  · have hrest : rest ≠ [] := hne
    have := hpre (by rw [hq]; exact hrest)
    show Q.reqsip + 1 = Q.reqsipMax
    omega

/-- `callback_reqdone` retries the request, or answers it with its status. -/
theorem callbackReqdone_eq_some {R : ℕ} {res : Option ℕ} {c : Option (ℕ × ℕ)}
    (h : callbackReqdone addr R res Q = some (Q', c)) :
    retries res = true ∧ c = none ∧
        poke addr { Q with reqsip := Q.reqsip - 1, ip := Q.ip.erase R, queued := Q.queued ++ [R] } =
          some Q' ∨
      ∃ status, res = some status ∧ retries res = false ∧ c = some (R, status) ∧
        poke addr { Q with reqsip := Q.reqsip - 1, ip := Q.ip.erase R } = some Q' := by
  unfold callbackReqdone at h
  cases res with
  | none =>
    obtain ⟨Q₁, hQ₁, hc⟩ := Option.map_eq_some_iff.mp h
    cases hc
    exact .inl ⟨rfl, rfl, hQ₁⟩
  | some status =>
    dsimp only at h
    split_ifs at h with hr
    · obtain ⟨Q₁, hQ₁, hc⟩ := Option.map_eq_some_iff.mp h
      cases hc
      exact .inl ⟨hr, rfl, hQ₁⟩
    · obtain ⟨Q₁, hQ₁, hc⟩ := Option.map_eq_some_iff.mp h
      cases hc
      exact .inr ⟨status, rfl, by simpa using hr, rfl, hQ₁⟩

end Operations

/-! ## The invariant -/

/-- The invariant: `reqsip` counts the requests in progress and those flushes cancelled, up to
the limit, which it reaches while requests are pending; each request queued is in one list at
most once; and the callbacks were performed once each, for requests no longer queued, with
statuses that are not retried. -/
structure QWorld.Inv (W : QWorld) : Prop where
  reqsip : W.Q.reqsip = W.Q.ip.length + W.dropped
  le_max : W.Q.reqsip ≤ W.Q.reqsipMax
  busy : W.Q.queued ≠ [] → W.Q.reqsip = W.Q.reqsipMax
  nodup : (W.Q.queued ++ W.Q.ip).Nodup
  added : ∀ R ∈ W.Q.queued ++ W.Q.ip, R ∈ W.added
  calls : ∀ c ∈ W.calls, c.1 ∈ W.added ∧ c.1 ∉ W.Q.queued ++ W.Q.ip ∧ retries (some c.2) = false
  calls_nodup : (W.calls.map Prod.fst).Nodup

/-- The invariant before the `poke` that ends an operation: a request may be pending below the
limit, which the poke launches. -/
structure QWorld.PreInv (W : QWorld) : Prop where
  reqsip : W.Q.reqsip = W.Q.ip.length + W.dropped
  le_max : W.Q.reqsip ≤ W.Q.reqsipMax
  pre : W.Q.queued.tail ≠ [] → W.Q.reqsipMax ≤ W.Q.reqsip + 1
  nodup : (W.Q.queued ++ W.Q.ip).Nodup
  added : ∀ R ∈ W.Q.queued ++ W.Q.ip, R ∈ W.added
  calls : ∀ c ∈ W.calls, c.1 ∈ W.added ∧ c.1 ∉ W.Q.queued ++ W.Q.ip ∧ retries (some c.2) = false
  calls_nodup : (W.calls.map Prod.fst).Nodup

namespace QWorld

variable {W : QWorld}

theorem qInit_inv {conns : ℕ} (h : qInit conns W) : W.Inv := by
  subst h
  constructor <;> simp [s3RequestQueueInit]

/-- The poke that ends an operation restores the invariant. -/
theorem PreInv.poke (hW : W.PreInv) {addr : Bool} {Q : S3RequestQueue}
    (hp : poke addr W.Q = some Q) : QWorld.Inv { W with Q := Q } := by
  obtain ⟨hperm, hcount⟩ := poke_lists hp
  have hmem : ∀ R, R ∈ Q.queued ++ Q.ip ↔ R ∈ W.Q.queued ++ W.Q.ip := fun R => hperm.mem_iff
  constructor
  · simp only at hcount ⊢
    rw [hW.reqsip] at hcount
    omega
  · exact poke_le_max hp hW.le_max
  · exact poke_busy hp hW.le_max hW.pre
  · exact hperm.nodup_iff.mpr hW.nodup
  · exact fun R hR => hW.added R ((hmem R).mp hR)
  · intro c hc
    obtain ⟨hadd, hnot, hret⟩ := hW.calls c hc
    exact ⟨hadd, fun h => hnot ((hmem _).mp h), hret⟩
  · exact hW.calls_nodup

theorem queue_inv (hW : W.Inv) {addr : Bool} {R : ℕ} {Q : S3RequestQueue} (hR : R ∉ W.added)
    (hq : s3RequestQueue addr R W.Q = some Q) :
    QWorld.Inv { W with Q := Q, added := W.added ++ [R] } := by
  -- the new request is in no list and was never answered
  have hfresh : R ∉ W.Q.queued ++ W.Q.ip := fun h => hR (hW.added R h)
  have hperm : (W.Q.queued ++ [R] ++ W.Q.ip).Perm (R :: (W.Q.queued ++ W.Q.ip)) := by
    rw [List.append_assoc, List.singleton_append]
    exact List.perm_middle
  have hpre : QWorld.PreInv
      { W with Q := { W.Q with queued := W.Q.queued ++ [R] }, added := W.added ++ [R] } := by
    constructor
    · exact hW.reqsip
    · exact hW.le_max
    · -- a request was already pending: the queue was at its limit
      intro htail
      have hne : W.Q.queued ≠ [] := by
        rintro hnil
        simp [hnil] at htail
      simp [hW.busy hne]
    · exact hperm.nodup_iff.mpr (List.nodup_cons.mpr ⟨hfresh, hW.nodup⟩)
    · intro R' hR'
      rcases List.mem_cons.mp (hperm.subset hR') with rfl | hR'
      · exact List.mem_append_right _ (List.mem_singleton_self _)
      · exact List.mem_append_left _ (hW.added R' hR')
    · intro c hc
      obtain ⟨hadd, hnot, hret⟩ := hW.calls c hc
      refine ⟨List.mem_append_left _ hadd, fun hmem => ?_, hret⟩
      rcases List.mem_cons.mp (hperm.subset hmem) with heq | hmem
      · exact hR (heq ▸ hadd)
      · exact hnot hmem
    · exact hW.calls_nodup
  exact hpre.poke hq

theorem done_inv (hW : W.Inv) {addr : Bool} {R : ℕ} {res : Option ℕ} {Q : S3RequestQueue}
    {c : Option (ℕ × ℕ)} (hR : R ∈ W.Q.ip) (hd : callbackReqdone addr R res W.Q = some (Q, c)) :
    QWorld.Inv { W with Q := Q, calls := W.calls ++ c.toList } := by
  have hpos : 0 < W.Q.ip.length := List.length_pos_of_mem hR
  have hlen : (W.Q.ip.erase R).length = W.Q.ip.length - 1 := List.length_erase_of_mem hR
  have hnd := List.nodup_append.mp hW.nodup
  have hRq : R ∉ W.Q.queued := fun h => hnd.2.2 R h R hR rfl
  have hRe : R ∉ W.Q.ip.erase R := hnd.2.1.not_mem_erase
  -- after the request leaves the in-progress list, the lists are those before less `R`
  have hsplit : (W.Q.queued ++ W.Q.ip).Perm (R :: (W.Q.queued ++ W.Q.ip.erase R)) :=
    (List.Perm.append_left _ (List.perm_cons_erase hR)).trans List.perm_middle
  have hsub : ∀ x ∈ W.Q.queued ++ W.Q.ip.erase R, x ∈ W.Q.queued ++ W.Q.ip := fun x hx =>
    hsplit.symm.subset (List.mem_cons_of_mem _ hx)
  have hnd' : (W.Q.queued ++ W.Q.ip.erase R).Nodup :=
    (List.nodup_cons.mp (hsplit.nodup_iff.mp hW.nodup)).2
  have hcount : W.Q.reqsip - 1 = (W.Q.ip.erase R).length + W.dropped := by
    rw [hW.reqsip, hlen]
    omega
  rcases callbackReqdone_eq_some hd with ⟨-, rfl, hp⟩ | ⟨status, rfl, hret, rfl, hp⟩
  · -- retried: the request goes back to the tail of the pending list
    have hperm : (W.Q.queued ++ [R] ++ W.Q.ip.erase R).Perm (W.Q.queued ++ W.Q.ip) := by
      rw [List.append_assoc, List.singleton_append]
      exact List.perm_middle.trans hsplit.symm
    rw [Option.toList_none, List.append_nil]
    refine PreInv.poke
      (W := { W with Q := ⟨W.Q.reqsipMax, W.Q.reqsip - 1, W.Q.queued ++ [R], W.Q.ip.erase R⟩ })
      ⟨hcount,
      by have := hW.le_max; simp; omega, fun htail => ?_, hperm.nodup_iff.mpr hW.nodup,
      fun x hx => hW.added x (hperm.subset hx), fun c hc => ?_, hW.calls_nodup⟩ hp
    · have hne : W.Q.queued ≠ [] := by
        rintro hnil
        simp [hnil] at htail
      have := hW.busy hne
      simp only
      omega
    · obtain ⟨hadd, hnot, hret⟩ := hW.calls c hc
      exact ⟨hadd, fun h => hnot (hperm.subset h), hret⟩
  · -- answered: the callback is performed for a request in no list any more
    refine PreInv.poke
      (W := { W with
        Q := ⟨W.Q.reqsipMax, W.Q.reqsip - 1, W.Q.queued, W.Q.ip.erase R⟩
        calls := W.calls ++ [(R, status)] })
      ⟨hcount, by have := hW.le_max; simp; omega, fun htail => ?_, hnd', fun x hx => hW.added x
        (hsub x hx), fun c hc => ?_, ?_⟩ hp
    · have hne : W.Q.queued ≠ [] := by
        rintro hnil
        simp [hnil] at htail
      have := hW.busy hne
      simp only
      omega
    · rcases List.mem_append.mp hc with hc | hc
      · obtain ⟨hadd, hnot, hret⟩ := hW.calls c hc
        exact ⟨hadd, fun h => hnot (hsub _ h), hret⟩
      · rw [List.mem_singleton.mp hc]
        refine ⟨hW.added R (List.mem_append_right _ hR), ?_, hret⟩
        simp only [List.mem_append, not_or]
        exact ⟨hRq, hRe⟩
    · rw [List.map_append, List.nodup_append]
      refine ⟨hW.calls_nodup, by simp, ?_⟩
      simp only [List.map_cons, List.map_nil, List.mem_singleton]
      rintro a ha _ rfl rfl
      obtain ⟨c', hc', rfl⟩ := List.mem_map.mp ha
      exact (hW.calls c' hc').2.1 (List.mem_append_right _ hR)

theorem flush_inv (hW : W.Inv) :
    QWorld.Inv { W with Q := s3RequestQueueFlush W.Q, dropped := W.dropped + W.Q.ip.length } := by
  constructor
  · simp only [s3RequestQueueFlush, List.length_nil]
    rw [hW.reqsip]
    omega
  · exact hW.le_max
  · simp [s3RequestQueueFlush]
  · simp [s3RequestQueueFlush]
  · simp [s3RequestQueueFlush]
  · intro c hc
    obtain ⟨hadd, -, hret⟩ := hW.calls c hc
    exact ⟨hadd, by simp [s3RequestQueueFlush], hret⟩
  · exact hW.calls_nodup

end QWorld

theorem QStep.inv {W W' : QWorld} (hW : W.Inv) (h : QStep W W') : W'.Inv := by
  cases h with
  | queue hR hq => exact QWorld.queue_inv hW hR hq
  | done hR hd => exact QWorld.done_inv hW hR hd
  | flush => exact QWorld.flush_inv hW

/-- The limit never changes, and the count of cancelled requests only grows. -/
theorem QStep.reqsipMax_dropped {W W' : QWorld} (h : QStep W W') :
    W'.Q.reqsipMax = W.Q.reqsipMax ∧ W.dropped ≤ W'.dropped := by
  cases h with
  | queue _ hq => exact ⟨(poke_reqsipMax hq :), le_rfl⟩
  | done _ hd =>
    refine ⟨?_, le_rfl⟩
    rcases callbackReqdone_eq_some hd with ⟨-, -, hp⟩ | ⟨-, -, -, -, hp⟩
    · exact (poke_reqsipMax hp :)
    · exact (poke_reqsipMax hp :)
  | flush => exact ⟨rfl, Nat.le_add_right _ _⟩

theorem QWorld.reachable_inv {conns : ℕ} {W : QWorld} (h : Reachable (qInit conns) QStep W) :
    W.Inv :=
  h.invariant (fun _ => QWorld.qInit_inv) fun _ _ hW hst => hst.inv hW

/-- Once flushes cancelled as many requests as the limit, nothing is ever in progress again. -/
theorem QWorld.Inv.ip_eq_nil {W : QWorld} (hW : W.Inv) (h : W.Q.reqsipMax ≤ W.dropped) :
    W.Q.ip = [] := by
  have hcount := hW.reqsip
  have hle := hW.le_max
  exact List.eq_nil_of_length_eq_zero (by omega)

/-! ## A flush during a request -/

/-- A queue of one connection after request 0 was launched, the connection died and the queue
was flushed, and request 1 was queued for the next connection. -/
def flushedWorld : QWorld := ⟨⟨1, 1, [1], []⟩, [0, 1], [], 1⟩

theorem reachable_flushedWorld : Reachable (qInit 1) QStep flushedWorld := by
  have h₀ : Reachable (qInit 1) QStep ⟨s3RequestQueueInit 1, [], [], 0⟩ := .init rfl
  have h₁ := h₀.tail (@QStep.queue _ true 0 ⟨1, 1, [], [0]⟩ (by simp) rfl)
  have h₂ := h₁.tail QStep.flush
  have h₃ := h₂.tail (@QStep.queue _ true 1 ⟨1, 1, [1], []⟩ (by simp) rfl)
  exact h₃

/-- After the flush `reqsip` still counts the cancelled request, so request 1 stays pending:
from there on nothing is ever launched or answered. -/
theorem flush_keeps_reqsip :
    Reachable (qInit 1) QStep flushedWorld ∧
      flushedWorld.Q.reqsip ≠ flushedWorld.Q.ip.length ∧ flushedWorld.Q.queued = [1] ∧
      ∀ W, Reachable (· = flushedWorld) QStep W → W.Q.ip = [] ∧ W.calls = [] := by
  refine ⟨reachable_flushedWorld, by decide, rfl, fun W hW => ?_⟩
  -- the invariant, the limit of one, the cancelled request and no callback carry over every step
  have hrun : W.Inv ∧ W.Q.reqsipMax = 1 ∧ 1 ≤ W.dropped ∧ W.calls = [] := by
    refine hW.invariant (P := fun W => W.Inv ∧ W.Q.reqsipMax = 1 ∧ 1 ≤ W.dropped ∧ W.calls = [])
      (fun _ h => ?_) fun W₁ W₂ ⟨hI, hmax, hdrop, hcalls⟩ hst => ?_
    · subst h
      exact ⟨QWorld.reachable_inv reachable_flushedWorld, rfl, le_rfl, rfl⟩
    · obtain ⟨hmax', hdrop'⟩ := hst.reqsipMax_dropped
      refine ⟨hst.inv hI, hmax'.trans hmax, hdrop.trans hdrop', ?_⟩
      cases hst with
      | queue => exact hcalls
      | done hR =>
        rw [hI.ip_eq_nil (by omega)] at hR
        exact absurd hR List.not_mem_nil
      | flush => exact hcalls
  obtain ⟨hI, hmax, hdrop, hcalls⟩ := hrun
  exact ⟨hI.ip_eq_nil (by omega), hcalls⟩

end Kivaloo.S3
