import Mathlib
import Kivaloo.Kvlds.Proto
import Kivaloo.Lbs.Codec
import Kivaloo.Wire.Packet
import Kivaloo.Lib.Transition

/-!
# The request dispatcher of kvlds (kvlds/dispatch.c)

kvlds serves one connection at a time.  `gotrequest` reads the request packets buffered on it,
one after another, and owes a response for each (`nrequests`): PARAMS is answered at once,
GET and RANGE join the queue of non-modifying requests (NMRs), and SET, CAS, ADD, MODIFY,
DELETE and CAD the queue of modifying requests (MRs), after a check of their key and value
lengths that drops the connection when it fails.  Reading stops while `MAXREQS` responses are
owed and starts again as they are paid.

`poke_nmr` launches queued NMRs in order while the pages they touch fit `nmr_concurrency`;
`poke_mr` launches the queued MRs as one batch, at most one batch at a time, once enough of
them wait, once the group-commit timer has expired, or once the cleaner asks for a batch; the
batch takes as many requests as fit `mr_concurrency` at one page per level of the tree each.
When an MR is queued and no batch is launched, the group-commit timer is started.
`dropconnection` frees the queued requests; the requests in progress run to completion.

The model's events are the callbacks of the dispatcher, each run to completion: a connection
accepted, a wait for requests that completes (`gotrequest` over what the reader holds) or
fails, a write that fails (`dropconnection`), an NMR or a batch that completes, and the
group-commit and cleaning timers.  The tree is the environment: the height of its roots is an
input of each callback, and whether the cleaner can clean is an input of its timer.  A callback
starts NMRs and batches and answers or frees requests (`Effect`); the world records beside the
dispatcher the NMRs and batches in progress and, as ghost state, every request read, answered
and freed, and every request launched.  A function returns `none` where an `assert` fails.
Failures of allocations, of event registration and of the socket end the daemon and are left
out.

In every world a run reaches, the books of the dispatcher balance (`KWorld.Books`): each
request read is answered, freed by `dropconnection`, or outstanding (queued or in progress), and
`nrequests` counts the outstanding ones, never more than `MAXREQS`; requests of each kind are
launched in the order they were read; the pages of the NMRs in progress exceed
`nmr_concurrency` only when one NMR touches them all; and a dying connection has stopped reading
and freed its queues.  A queued MR always has the group-commit timer or a batch in progress to
wake it (`KWorld.Inv`, `KReachable.inv`).  No callback that can run fails an assertion, and the
assertions of `dispatch_done` hold once `dispatch_alive` is false (`kvldsDispatch_safe`).  Each
function of the dispatcher has one lemma saying what it keeps; the callbacks are assembled from
them.  The requests the reader takes from the connection are those a client wrote
(`protoKvldsRequestReads_writtenStream`).

`dispatch_alive` looks at the requests owed only: a batch launched by the cleaning timer owes
no response, so the dispatcher can report that it is no longer alive while such a batch is in
progress, and `dispatch_done` then frees the state that the batch's completion
(`callback_mr_done`) will use (`dispatchAlive_cleaningBatch`).
-/

namespace Kivaloo.Kvlds

open Kivaloo.Lib

/-- `MAXREQS`: the most responses owed at once. -/
def maxreqs : ℕ := 4096

/-! ## Reading requests -/

section Reading

variable (crc : List UInt8 → Fin 4 → UInt8)

theorem length_consume_lt {data buf : List UInt8} {ID : ℕ}
    (h : Wire.wireReadpacketPeek crc data = .packet ID buf) :
    (Wire.wireReadpacketConsume data buf.length).length < data.length := by
  simp only [Wire.wireReadpacketPeek] at h
  split_ifs at h with h20
  simp only [Wire.wireReadpacketConsume, List.length_drop]
  omega

/-- The results of `proto_kvlds_request_read` on the bytes the reader holds, one call after
another, each consuming the packet it parsed: a request, or `none` for a failure (a bad packet
or one that does not parse), after which the reader is not called again.  The list ends where no
packet is left (`PROTO_KVLDS_NONE`). -/
def protoKvldsRequestReads (data : List UInt8) : List (Option ProtoKvldsRequest) :=
  match _h : Wire.wireReadpacketPeek crc data with
  | .nopacket => []
  | .failed _ => [none]
  | .packet ID buf =>
    match protoKvldsRequestParse ID buf with
    | none => [none]
    | some R => some R :: protoKvldsRequestReads (Wire.wireReadpacketConsume data buf.length)
termination_by data.length
decreasing_by exact length_consume_lt crc _h

/-- The reader takes back, in order, the requests a client wrote on the connection. -/
theorem protoKvldsRequestReads_writtenStream :
    ∀ (reqs : List ProtoKvldsRequest), (∀ R ∈ reqs, R.ID < 2 ^ 64) →
      protoKvldsRequestReads crc
          (Wire.writtenStream crc (reqs.map fun R => (R.ID, clientRequest R.fields))) =
        reqs.map some
  | [], _ => by
    have hpeek : Wire.wireReadpacketPeek crc [] = .nopacket := rfl
    rw [List.map_nil, Wire.writtenStream_nil, protoKvldsRequestReads]
    split
    next => rfl
    next h => rw [hpeek] at h; cases h
    next h => rw [hpeek] at h; cases h
  | R :: reqs, hID => by
    have hlen : (clientRequest R.fields).length < 2 ^ 32 := by
      have := length_bytes_le R.fields
      rw [clientRequest_eq, List.length_append, length_beEnc]
      omega
    have hpeek := Wire.wireReadpacketPeek_append crc (hID R List.mem_cons_self) hlen
      (Wire.writtenStream crc (reqs.map fun R => (R.ID, clientRequest R.fields)))
    rw [List.map_cons, Wire.writtenStream_cons, protoKvldsRequestReads]
    split
    next h => rw [hpeek] at h; cases h
    next h => rw [hpeek] at h; cases h
    next ID buf h =>
      -- the packet read is the one written, and it parses back to the request
      rw [hpeek, Wire.PeekResult.packet.injEq] at h
      obtain ⟨rfl, rfl⟩ := h
      rw [protoKvldsRequestParse_clientRequest, Wire.wireReadpacketConsume_append,
        protoKvldsRequestReads_writtenStream reqs fun R' hR' => hID R' (List.mem_cons_of_mem _ hR')]
      rfl

end Reading

/-! ## The dispatcher -/

/-- `struct dispatch_state`, without the socket, the buffers and the timers' periods: whether
the connection is dying, whether it has been accepted (`readq != NULL`), whether a wait for
requests is registered (`read_cookie != NULL`), the responses owed, the length limits, the NMR
queue with the pages of the NMRs in progress and their limit, the MR queue with the size of the
current batch, its limit and length, and the group-commit and cleaning controls
(`mr_timer != NULL`, `mrc_timer != NULL`). -/
structure DispatchState where
  dying : Bool
  reader : Bool
  reading : Bool
  nrequests : ℕ
  kmax : ℕ
  vmax : ℕ
  nmrQueue : List ProtoKvldsRequest
  nmrIp : ℕ
  nmrConcurrency : ℕ
  mrQueue : List ProtoKvldsRequest
  mrReqs : ℕ
  mrConcurrency : ℕ
  mrInprogress : Bool
  mrQlen : ℕ
  mrTimer : Bool
  mrTimerExpired : Bool
  mrMinBatch : ℕ
  mrcTimer : Bool
  docleans : Bool

/-- What a callback of the dispatcher starts or finishes, in order: a request read from the
connection, the response to PARAMS, an NMR launched with the pages it touches
(`dispatch_nmr_launch`), a batch of MRs launched (`dispatch_mr_launch`), and a request freed
without a response. -/
inductive Effect
  | read (R : ProtoKvldsRequest)
  | respondParams (R : ProtoKvldsRequest) (kmax vmax : ℕ)
  | launchNmr (R : ProtoKvldsRequest) (npages : ℕ)
  | launchMr (reqs : List ProtoKvldsRequest)
  | free (R : ProtoKvldsRequest)

/-- `dispatch_accept(s, T, kmax, vmax, w, g)` for a tree of `poolsz` pages of `pagelen` bytes:
nothing read yet, the limits a quarter of the pool each (`mr_concurrency` cut down to what
keeps an APPEND within a wire packet), and the cleaning timer started. -/
def dispatchAccept (poolsz pagelen kmax vmax g : ℕ) : DispatchState where
  dying := false
  reader := false
  reading := false
  nrequests := 0
  kmax := kmax
  vmax := vmax
  nmrQueue := []
  nmrIp := 0
  nmrConcurrency := poolsz / 4
  mrQueue := []
  mrReqs := 0
  mrConcurrency := Lbs.mrConcurrency poolsz pagelen
  mrInprogress := false
  mrQlen := 0
  mrTimer := false
  mrTimerExpired := false
  mrMinBatch := g
  mrcTimer := true
  docleans := false

/-- `dropconnection(D)`: the connection is dying, the wait for requests is cancelled, each
queued request is freed with one response fewer owed, and the group-commit timer is
cancelled. -/
def dropconnection (D : DispatchState) : DispatchState × List Effect :=
  ({ D with
      dying := true
      reading := false
      nmrQueue := []
      mrQueue := []
      nrequests := D.nrequests - D.nmrQueue.length - D.mrQueue.length
      mrQlen := D.mrQlen - D.mrQueue.length
      mrTimer := false
      mrTimerExpired := false },
    (D.nmrQueue ++ D.mrQueue).map .free)

/-- `readreqs(D)`: wait for requests unless the connection is dying, not yet accepted, already
waited on, or owed `MAXREQS` responses. -/
def readreqs (D : DispatchState) : DispatchState :=
  if D.dying || !D.reader || D.reading || D.nrequests == maxreqs then D
  else { D with reading := true }

/-- The pages an NMR touches, as `poke_nmr` counts them from the height of the committed root:
one per level for a GET, and for a RANGE the levels above the leaves and a page per child
record a parent page can hold. -/
def nmrPages (height pagelen : ℕ) (R : ProtoKvldsRequest) : ℕ :=
  if R.fields.type = .get then height + 1 else height + pagelen / serializePerchild

/-- The loop of `poke_nmr` from `nmr_ip = ip` over the queue: an NMR is launched unless others
are in progress and it would take the pages past `conc`.  It returns the new `nmr_ip`, the rest
of the queue and the NMRs launched. -/
def pokeNmrLoop (height pagelen conc : ℕ) :
    ℕ → List ProtoKvldsRequest → ℕ × List ProtoKvldsRequest × List Effect
  | ip, [] => (ip, [], [])
  | ip, R :: q =>
    if 0 < ip ∧ conc < ip + nmrPages height pagelen R then (ip, R :: q, [])
    else
      let r := pokeNmrLoop height pagelen conc (ip + nmrPages height pagelen R) q
      (r.1, r.2.1, .launchNmr R (nmrPages height pagelen R) :: r.2.2)

/-- `poke_nmr(D)` with the committed root at `height`. -/
def pokeNmr (height pagelen : ℕ) (D : DispatchState) : DispatchState × List Effect :=
  let r := pokeNmrLoop height pagelen D.nmrConcurrency D.nmrIp D.nmrQueue
  ({ D with nmrIp := r.1, nmrQueue := r.2.1 }, r.2.2)

/-- The size of the batch `poke_mr` launches from `qlen` queued MRs at `pagesperop` pages
each: all of them, or as many as fit `concurrency`. -/
def mrBatchSize (qlen pagesperop concurrency : ℕ) : ℕ :=
  if qlen * pagesperop > concurrency then concurrency / pagesperop else qlen

/-- Whether `poke_mr` launches a batch: none is in progress, and the timer has expired, the
cleaner wants a batch or `mr_min_batch` MRs wait. -/
def DispatchState.launchable (D : DispatchState) : Bool :=
  !D.mrInprogress && (D.mrTimerExpired || D.docleans || decide (D.mrQlen ≥ D.mrMinBatch))

/-- The launch of a batch of the first `n` queued MRs in `poke_mr`: the group-commit timer is
cancelled and the cleaning timer started again from five seconds. -/
def launchBatch (n : ℕ) (D : DispatchState) : DispatchState × List Effect :=
  ({ D with
      mrReqs := n
      mrQueue := D.mrQueue.drop n
      mrQlen := D.mrQlen - n
      mrInprogress := true
      mrTimer := false
      mrTimerExpired := false
      mrcTimer := true
      docleans := false },
    [.launchMr (D.mrQueue.take n)])

/-- The end of `poke_mr`: the group-commit timer is started if MRs wait and it is neither
ticking nor expired. -/
def startMrTimer (D : DispatchState) : DispatchState :=
  if !D.mrTimer && !D.mrTimerExpired && decide (D.mrQlen > 0) then { D with mrTimer := true }
  else D

/-- `poke_mr(D)` with the root of the dirty tree at `height`.  `none` where an assertion fails:
`mr_qlen <= MAXREQS`, and a request at the head of the queue for each one the batch takes. -/
def pokeMr (height : ℕ) (D : DispatchState) : Option (DispatchState × List Effect) :=
  if D.mrQlen > maxreqs then none
  else if D.launchable then
    let n := mrBatchSize D.mrQlen (height + 1) D.mrConcurrency
    if D.mrQueue.length < n then none
    else
      let r := launchBatch n D
      some (startMrTimer r.1, r.2)
  else some (startMrTimer D, [])

/-- `callback_nmr_done(RQ)` for an NMR that touched `npages` pages. -/
def callbackNmrDone (height pagelen : ℕ) (D : DispatchState) (npages : ℕ) :
    DispatchState × List Effect :=
  pokeNmr height pagelen
    (readreqs { D with nmrIp := D.nmrIp - npages, nrequests := D.nrequests - 1 })

/-- `callback_mr_done(D)`: the batch's requests are answered. -/
def callbackMrDone (height : ℕ) (D : DispatchState) : Option (DispatchState × List Effect) :=
  pokeMr height
    (readreqs { D with nrequests := D.nrequests - D.mrReqs, mrInprogress := false })

/-- `callback_mr_timer(D)`: the group-commit timer expires. -/
def callbackMrTimer (height : ℕ) (D : DispatchState) : Option (DispatchState × List Effect) :=
  pokeMr height { D with mrTimerExpired := true, mrTimer := false }

/-- `callback_mrc_timer(D)`, where `possible` is what `btree_cleaning_possible` answers: the
timer is started again, or a batch is asked for. -/
def callbackMrcTimer (possible : Bool) (height : ℕ) (D : DispatchState) :
    Option (DispatchState × List Effect) :=
  if !possible then some ({ D with mrcTimer := true }, [])
  else pokeMr height { D with mrcTimer := false, docleans := true }

/-- The MR types whose key and value lengths `gotrequest` checks, with the key and the value
it checks: the new value of a CAS. -/
def ProtoKvldsFields.setValue : ProtoKvldsFields → Option (KVLDSKey × KVLDSKey)
  | .set key value | .add key value | .modify key value | .cas key _ value => some (key, value)
  | _ => none

/-- The requests `gotrequest` puts in the MR queue, given that their lengths pass. -/
def ProtoKvldsType.isMr : ProtoKvldsType → Bool
  | .set | .cas | .add | .modify | .delete | .cad => true
  | _ => false

/-- The requests `gotrequest` puts in the NMR queue. -/
def ProtoKvldsType.isNmr : ProtoKvldsType → Bool
  | .get | .range => true
  | _ => false

/-- The loop of `gotrequest(D, 0)` over the results `rs` of reading requests, with the roots
of the dirty and the committed tree at `hd` and `hs`: stop while `MAXREQS` responses are owed
or no packet is left, and wait for more requests; drop the connection on a failed read.  A
request is owed a response; PARAMS is answered, an MR whose key or value is too long drops the
connection, the other MRs and the NMRs join their queues, which are poked. -/
def gotrequestLoop (hd hs pagelen : ℕ) :
    DispatchState → List (Option ProtoKvldsRequest) → Option (DispatchState × List Effect)
  | D, rs =>
    if D.nrequests = maxreqs then some (readreqs D, [])
    else
      match rs with
      | [] => some (readreqs D, [])
      | none :: _ => some (dropconnection D)
      | some R :: rs =>
        let D := { D with nrequests := D.nrequests + 1 }
        if R.fields.type = .params then
          (gotrequestLoop hd hs pagelen { D with nrequests := D.nrequests - 1 } rs).map
            fun r => (r.1, .read R :: .respondParams R D.kmax D.vmax :: r.2)
        else if R.fields.setValue.any fun kv => kv.1.len > D.kmax || kv.2.len > D.vmax then
          -- `drop2`
          let r := dropconnection { D with nrequests := D.nrequests - 1 }
          some (r.1, .read R :: .free R :: r.2)
        else if R.fields.type.isMr then
          match pokeMr hd { D with mrQueue := D.mrQueue ++ [R], mrQlen := D.mrQlen + 1 } with
          | none => none
          | some (D, es) =>
            (gotrequestLoop hd hs pagelen D rs).map fun r => (r.1, .read R :: es ++ r.2)
        else
          let (D, es) := pokeNmr hs pagelen { D with nmrQueue := D.nmrQueue ++ [R] }
          (gotrequestLoop hd hs pagelen D rs).map fun r => (r.1, .read R :: es ++ r.2)

/-- `gotrequest(D, status)` with the reads `rs` of what the reader holds: no longer waiting,
the connection is dropped if the wait failed. -/
def gotrequest (hd hs pagelen : ℕ) (D : DispatchState) (failed : Bool)
    (rs : List (Option ProtoKvldsRequest)) : Option (DispatchState × List Effect) :=
  let D := { D with reading := false }
  if failed then some (dropconnection D) else gotrequestLoop hd hs pagelen D rs

/-- `callback_accept(D, s)`: the connection is accepted and requests are waited for. -/
def callbackAccept (D : DispatchState) : DispatchState := readreqs { D with reader := true }

/-- `dispatch_alive(D)`. -/
def dispatchAlive (D : DispatchState) : Bool := !D.dying || decide (D.nrequests > 0)

/-- `dispatch_done(D)`: `none` where one of its assertions fails. -/
def dispatchDone (D : DispatchState) : Option Unit :=
  if D.mrTimer || D.nrequests != 0 || D.reading || !D.dying then none else some ()

/-! ## What each function does -/

section Spec

variable {D D' : DispatchState} {es : List Effect} {hd : ℕ}

theorem readreqs_eq (D : DispatchState) :
    readreqs D = { D with reading := D.reading || !D.dying && D.reader && D.nrequests != maxreqs } := by
  cases D with
  | mk dying reader reading n =>
    cases dying <;> cases reader <;> cases reading <;> by_cases h : n = maxreqs <;>
      simp [readreqs, h]

theorem startMrTimer_eq (D : DispatchState) :
    startMrTimer D =
      { D with mrTimer := D.mrTimer || !D.mrTimerExpired && decide (D.mrQlen > 0) } := by
  cases D with
  | mk _ _ _ _ _ _ _ _ _ _ _ _ _ qlen timer expired =>
    cases timer <;> cases expired <;> by_cases h : qlen > 0 <;> simp [startMrTimer, h]

theorem mrBatchSize_le (qlen p c : ℕ) : mrBatchSize qlen p c ≤ qlen := by
  unfold mrBatchSize
  split_ifs with h
  · -- `c / p` pages' worth of requests fit, fewer than the `qlen` that do not
    have : c / p * p < qlen * p := lt_of_le_of_lt (Nat.div_mul_le_self c p) h
    exact (Nat.lt_of_mul_lt_mul_right this).le
  · exact le_rfl

/-- `poke_mr` fails no assertion when `mr_qlen` is the length of the queue and at most
`MAXREQS`. -/
theorem pokeMr_isSome (hq : D.mrQlen = D.mrQueue.length) (hle : D.mrQlen ≤ maxreqs) :
    ∃ r, pokeMr hd D = some r := by
  have hn := mrBatchSize_le D.mrQlen (hd + 1) D.mrConcurrency
  unfold pokeMr
  dsimp only
  split_ifs <;> first | omega | exact ⟨_, rfl⟩

/-- Everything `poke_mr` can do: launch a batch of as many queued MRs as fit, or not, and then
start the timer. -/
theorem pokeMr_eq_some (h : pokeMr hd D = some (D', es)) :
    D.mrQlen ≤ maxreqs ∧
      ((D.launchable = true ∧
          mrBatchSize D.mrQlen (hd + 1) D.mrConcurrency ≤ D.mrQueue.length ∧
          D' = startMrTimer (launchBatch (mrBatchSize D.mrQlen (hd + 1) D.mrConcurrency) D).1 ∧
          es = (launchBatch (mrBatchSize D.mrQlen (hd + 1) D.mrConcurrency) D).2) ∨
        (D.launchable = false ∧ D' = startMrTimer D ∧ es = [])) := by
  unfold pokeMr at h
  dsimp only at h
  split_ifs at h with hq hl hlen
  · obtain ⟨rfl, rfl⟩ := Prod.mk.inj (Option.some.inj h)
    exact ⟨by omega, .inl ⟨hl, by omega, rfl, rfl⟩⟩
  · obtain ⟨rfl, rfl⟩ := Prod.mk.inj (Option.some.inj h)
    exact ⟨by omega, .inr ⟨by simpa using hl, rfl, rfl⟩⟩

theorem pokeMr_dying (h : pokeMr hd D = some (D', es)) : D'.dying = D.dying := by
  obtain ⟨-, ⟨-, -, rfl, -⟩ | ⟨-, rfl, -⟩⟩ := pokeMr_eq_some h <;> simp [startMrTimer_eq, launchBatch]

/-- The loop of `poke_nmr` launches a front part `L` of the queue, each NMR with its pages,
adding them to `nmr_ip`; the pages exceed the limit afterwards only where one NMR touches them
all, provided this held of the NMRs `N` in progress before. -/
theorem pokeNmrLoop_spec (height pagelen conc : ℕ) (N : List (ProtoKvldsRequest × ℕ))
    (ip : ℕ) (q : List ProtoKvldsRequest) (hsum : ip = (N.map (·.2)).sum)
    (hle : ip ≤ conc ∨ ∃ x ∈ N, x.2 = ip) :
    ∃ L : List (ProtoKvldsRequest × ℕ),
      q = L.map (·.1) ++ (pokeNmrLoop height pagelen conc ip q).2.1 ∧
      (pokeNmrLoop height pagelen conc ip q).2.2 = L.map (fun x => Effect.launchNmr x.1 x.2) ∧
      (pokeNmrLoop height pagelen conc ip q).1 = ((N ++ L).map (·.2)).sum ∧
      ((pokeNmrLoop height pagelen conc ip q).1 ≤ conc ∨
        ∃ x ∈ N ++ L, x.2 = (pokeNmrLoop height pagelen conc ip q).1) := by
  induction q generalizing N ip with
  | nil => exact ⟨[], by simp [pokeNmrLoop], by simp [pokeNmrLoop], by simp [pokeNmrLoop, hsum],
      by simpa [pokeNmrLoop] using hle⟩
  | cons R q ih =>
    by_cases hstop : 0 < ip ∧ conc < ip + nmrPages height pagelen R
    · rw [pokeNmrLoop, if_pos hstop]
      exact ⟨[], by simp, by simp, by simpa using hsum, by simpa using hle⟩
    · -- `R` is launched: alone if nothing was in progress, within the limit otherwise
      set n := nmrPages height pagelen R
      have hle' : ip + n ≤ conc ∨ ∃ x ∈ N ++ [(R, n)], x.2 = ip + n := by
        rcases Nat.eq_zero_or_pos ip with h0 | hpos
        · exact .inr ⟨(R, n), by simp, by simp [h0]⟩
        · exact .inl (by omega)
      obtain ⟨L, hq, hes, hip, hbound⟩ :=
        ih (N ++ [(R, n)]) (ip + n) (by simp [hsum]) hle'
      rw [pokeNmrLoop, if_neg hstop]
      refine ⟨(R, n) :: L, ?_, ?_, ?_, ?_⟩
      · simpa using hq
      · simp [hes, n]
      · simpa using hip
      · simpa using hbound

end Spec

/-! ## The world of the dispatcher -/

/-- What the callbacks of the dispatcher act on: the dispatcher, the NMRs in progress with the
pages each touches, the batch of MRs in progress, and as ghost state the requests read, answered
and freed, and the NMRs and the MRs launched, each in order. -/
structure KWorld where
  D : DispatchState
  nmrs : List (ProtoKvldsRequest × ℕ)
  batch : Option (List ProtoKvldsRequest)
  read : List ProtoKvldsRequest
  answered : List ProtoKvldsRequest
  freed : List ProtoKvldsRequest
  nmrLaunched : List ProtoKvldsRequest
  mrLaunched : List ProtoKvldsRequest

namespace KWorld

/-- The world before anything happens, after `dispatch_accept`. -/
def init (poolsz pagelen kmax vmax g : ℕ) : KWorld :=
  ⟨dispatchAccept poolsz pagelen kmax vmax g, [], none, [], [], [], [], []⟩

/-- What an effect of a callback records: a request read, a PARAMS answered, an NMR or a batch
in progress, a request freed. -/
def effect (W : KWorld) : Effect → KWorld
  | .read R => { W with read := W.read ++ [R] }
  | .respondParams R _ _ => { W with answered := W.answered ++ [R] }
  | .launchNmr R npages =>
    { W with
      nmrs := W.nmrs ++ [(R, npages)]
      nmrLaunched := W.nmrLaunched ++ [R] }
  | .launchMr reqs =>
    { W with
      batch := some reqs
      mrLaunched := W.mrLaunched ++ reqs }
  | .free R => { W with freed := W.freed ++ [R] }

/-- The world after a callback that leaves the dispatcher `D` and has the effects `es`. -/
def record (W : KWorld) (D : DispatchState) (es : List Effect) : KWorld :=
  { es.foldl effect W with D := D }

/-- The requests owed a response: queued, or in progress. -/
def outstanding (W : KWorld) : List ProtoKvldsRequest :=
  W.D.nmrQueue ++ W.nmrs.map (·.1) ++ W.D.mrQueue ++ W.batch.getD []

theorem foldl_effect_D (D : DispatchState) : ∀ (es : List Effect) (W : KWorld),
    es.foldl effect { W with D := D } = { es.foldl effect W with D := D }
  | [], _ => rfl
  | e :: es, W => by
    rw [List.foldl_cons, List.foldl_cons, ← foldl_effect_D D es]
    cases e <;> rfl

@[simp] theorem record_D (W : KWorld) (D : DispatchState) (es : List Effect) :
    (W.record D es).D = D := rfl

/-- A record sets the dispatcher: the one it replaces does not matter. -/
theorem record_setD (W : KWorld) (D₁ D : DispatchState) (es : List Effect) :
    ({ W with D := D₁ }).record D es = W.record D es := by
  simp only [record, foldl_effect_D]

theorem record_nil (W : KWorld) (D : DispatchState) : W.record D [] = { W with D := D } := rfl

/-- Two callbacks' records, one after the other, are one record of both effects. -/
theorem record_record (W : KWorld) (D₁ D : DispatchState) (es₁ es₂ : List Effect) :
    (W.record D₁ es₁).record D es₂ = W.record D (es₁ ++ es₂) := by
  simp only [record, List.foldl_append, foldl_effect_D]

theorem foldl_free : ∀ (rs : List ProtoKvldsRequest) (W : KWorld),
    (rs.map Effect.free).foldl effect W = { W with freed := W.freed ++ rs }
  | [], W => by simp
  | R :: rs, W => by
    rw [List.map_cons, List.foldl_cons, foldl_free rs]
    simp [effect]

theorem foldl_launchNmr : ∀ (L : List (ProtoKvldsRequest × ℕ)) (W : KWorld),
    (L.map fun x => Effect.launchNmr x.1 x.2).foldl effect W =
      { W with nmrs := W.nmrs ++ L, nmrLaunched := W.nmrLaunched ++ L.map (·.1) }
  | [], W => by simp
  | x :: L, W => by
    rw [List.map_cons, List.foldl_cons, foldl_launchNmr L]
    simp [effect]

end KWorld

/-- The callbacks of the dispatcher, each in a world where it can run: the connection accepted,
once; the wait for requests completing over the requests `proto_kvlds_request_read` takes from
the bytes the reader holds, or failing; a write failing, which the write queue reports to
`dropconnection`; an NMR in progress completing; the batch in progress completing; the
group-commit and the cleaning timer firing while registered.  The heights of the dirty and the
committed root, and whether the cleaner can clean, are inputs of each. -/
inductive KStep (crc : List UInt8 → Fin 4 → UInt8) (pagelen : ℕ) : KWorld → KWorld → Prop
  | accept {W : KWorld} (hreader : W.D.reader = false) :
      KStep crc pagelen W (W.record (callbackAccept W.D) [])
  | gotrequest {W : KWorld} {D : DispatchState} {es : List Effect} (hd hs : ℕ) (failed : Bool)
      (data : List UInt8) (hreading : W.D.reading = true)
      (h : gotrequest hd hs pagelen W.D failed (protoKvldsRequestReads crc data) = some (D, es)) :
      KStep crc pagelen W (W.record D es)
  | writeFailed {W : KWorld} (hreader : W.D.reader = true) :
      KStep crc pagelen W (W.record (dropconnection W.D).1 (dropconnection W.D).2)
  | nmrDone {W : KWorld} {x : ProtoKvldsRequest × ℕ} (hs : ℕ) (hx : x ∈ W.nmrs) :
      KStep crc pagelen W
        ({ W with nmrs := W.nmrs.erase x, answered := W.answered ++ [x.1] }.record
          (callbackNmrDone hs pagelen W.D x.2).1 (callbackNmrDone hs pagelen W.D x.2).2)
  | mrDone {W : KWorld} {reqs : List ProtoKvldsRequest} {D : DispatchState} {es : List Effect}
      (hd : ℕ) (hbatch : W.batch = some reqs) (h : callbackMrDone hd W.D = some (D, es)) :
      KStep crc pagelen W ({ W with batch := none, answered := W.answered ++ reqs }.record D es)
  | mrTimer {W : KWorld} {D : DispatchState} {es : List Effect} (hd : ℕ)
      (htimer : W.D.mrTimer = true) (h : callbackMrTimer hd W.D = some (D, es)) :
      KStep crc pagelen W (W.record D es)
  | mrcTimer {W : KWorld} {D : DispatchState} {es : List Effect} (possible : Bool) (hd : ℕ)
      (htimer : W.D.mrcTimer = true) (h : callbackMrcTimer possible hd W.D = some (D, es)) :
      KStep crc pagelen W (W.record D es)

/-- The worlds of a dispatcher over pages of `pagelen` bytes. -/
def KReachable (crc : List UInt8 → Fin 4 → UInt8) (pagelen : ℕ) : KWorld → Prop :=
  Lib.Reachable (fun W => ∃ poolsz kmax vmax g, W = KWorld.init poolsz pagelen kmax vmax g)
    (KStep crc pagelen)

/-! ## The invariant -/

/-- While MRs are queued, something will poke their queue: the group-commit timer ticks, or a
batch is in progress, whose completion pokes it. -/
def DispatchState.Wakes (D : DispatchState) : Prop :=
  D.mrQueue ≠ [] → D.mrTimer = true ∨ D.mrInprogress = true

/-- The books of the dispatcher: each request read is answered, freed or outstanding, and
`nrequests` counts the outstanding ones, at most `MAXREQS`; `mr_qlen`, `nmr_ip`,
`mr_inprogress` and `mr_reqs` describe the queues and what is in progress; the pages of the NMRs
in progress exceed `nmr_concurrency` only where one NMR touches them all; requests of each kind
are launched in the order they were read; and a dying connection has stopped reading, has freed
its queues and has no group-commit timer. -/
structure KWorld.Books (W : KWorld) : Prop where
  ledger : W.read.Perm (W.answered ++ W.freed ++ W.outstanding)
  nrequests : W.D.nrequests = W.outstanding.length
  le_maxreqs : W.D.nrequests ≤ maxreqs
  mrQlen : W.D.mrQlen = W.D.mrQueue.length
  nmrIp : W.D.nmrIp = (W.nmrs.map (·.2)).sum
  nmrFit : W.D.nmrIp ≤ W.D.nmrConcurrency ∨ ∃ x ∈ W.nmrs, x.2 = W.D.nmrIp
  inprogress : W.D.mrInprogress = W.batch.isSome
  mrReqs : ∀ reqs, W.batch = some reqs → W.D.mrReqs = reqs.length
  nmrOrder : (W.nmrLaunched ++ W.D.nmrQueue).Sublist W.read
  mrOrder : (W.mrLaunched ++ W.D.mrQueue).Sublist W.read
  dying : W.D.dying = true →
    W.D.reading = false ∧ W.D.nmrQueue = [] ∧ W.D.mrQueue = [] ∧ W.D.mrTimer = false

/-- The invariant of the dispatcher: its books, and queued MRs have something to wake them. -/
structure KWorld.Inv (W : KWorld) : Prop extends W.Books where
  wakes : W.D.Wakes

namespace KWorld

variable {W : KWorld}

/-- A ledger moved on keeps balancing when each request is counted alike on both sides. -/
theorem perm_of_counts {r r' l l' : List ProtoKvldsRequest} (h : r.Perm l)
    (hc : ∀ R, r'.count R + l.count R = r.count R + l'.count R) : r'.Perm l' := by
  rw [List.perm_iff_count] at h ⊢
  intro R
  have h₁ := hc R
  have h₂ := h R
  omega

/-- The responses owed, counted queue by queue. -/
theorem Books.nrequests_eq (hW : W.Books) : W.D.nrequests =
    W.D.nmrQueue.length + W.nmrs.length + W.D.mrQueue.length + (W.batch.getD []).length := by
  simpa only [outstanding, List.length_append, List.length_map] using hW.nrequests

/-- Nothing is owed to the `dying` field while the dispatcher is alive. -/
theorem dying_vacuous {D : DispatchState} {P : Prop} (hdy : D.dying = false) :
    D.dying = true → P :=
  fun h => absurd (h.symm.trans hdy) (by decide)

/-! ### What each function of the dispatcher keeps -/

/-- `readreqs` only starts a wait, and never on a dying connection. -/
theorem Books.readreqs (hW : W.Books) : { W with D := Kvlds.readreqs W.D }.Books := by
  rw [readreqs_eq]
  exact { hW with
    dying := fun (hdy : W.D.dying = true) => ⟨by simp [hdy, (hW.dying hdy).1], (hW.dying hdy).2⟩ }

theorem Inv.readreqs (hW : W.Inv) : { W with D := Kvlds.readreqs W.D }.Inv := by
  refine { hW.toBooks.readreqs with wakes := ?_ }
  rw [readreqs_eq]
  exact hW.wakes

/-- `dropconnection` frees the queued requests: they leave the outstanding ones for the freed. -/
theorem Books.dropconnection (hW : W.Books) :
    (W.record (Kvlds.dropconnection W.D).1 (Kvlds.dropconnection W.D).2).Inv := by
  have hn := hW.nrequests_eq
  have hm := hW.le_maxreqs
  have hq := hW.mrQlen
  simp only [Kvlds.dropconnection, record, foldl_free]
  refine
    { ledger := perm_of_counts hW.ledger fun R => ?_
      nrequests := ?_
      le_maxreqs := by dsimp only; omega
      mrQlen := by simp [hq]
      nmrIp := hW.nmrIp
      nmrFit := hW.nmrFit
      inprogress := hW.inprogress
      mrReqs := hW.mrReqs
      nmrOrder := by simpa using (List.sublist_append_left _ _).trans hW.nmrOrder
      mrOrder := by simpa using (List.sublist_append_left _ _).trans hW.mrOrder
      dying := fun _ => ⟨rfl, rfl, rfl, rfl⟩
      wakes := fun h => absurd rfl h }
  · simp only [outstanding, List.count_append, List.count_nil]
    omega
  · simp only [outstanding, List.length_append, List.length_map, List.length_nil]
    omega

/-- A batch of the first `n` queued MRs, launched while none is in progress, moves them from the
queue to the batch; the group-commit timer need not tick while the batch runs. -/
theorem Books.launchBatch (hW : W.Books) (hip : W.D.mrInprogress = false) {n : ℕ}
    (hlen : n ≤ W.D.mrQueue.length) :
    (W.record (startMrTimer (Kvlds.launchBatch n W.D).1) (Kvlds.launchBatch n W.D).2).Inv := by
  have hn := hW.nrequests_eq
  have hq := hW.mrQlen
  have hbatch : W.batch = none := by
    have hin := hW.inprogress
    rw [hip] at hin
    exact Option.not_isSome_iff_eq_none.mp (by simp [← hin])
  have hc : ∀ R, (W.D.mrQueue.take n).count R + (W.D.mrQueue.drop n).count R =
      W.D.mrQueue.count R := fun R => by
    rw [← List.count_append, List.take_append_drop]
  rw [hbatch, Option.getD_none, List.length_nil] at hn
  simp only [record, List.foldl_cons, List.foldl_nil, effect, Kvlds.launchBatch, startMrTimer_eq]
  refine
    { ledger := perm_of_counts hW.ledger fun R => ?_
      nrequests := ?_
      le_maxreqs := hW.le_maxreqs
      mrQlen := by simp [hq]
      nmrIp := hW.nmrIp
      nmrFit := hW.nmrFit
      inprogress := rfl
      mrReqs := fun reqs h => ?_
      nmrOrder := hW.nmrOrder
      mrOrder := by rw [List.append_assoc, List.take_append_drop]; exact hW.mrOrder
      dying := fun (hdy : W.D.dying = true) => ?_
      wakes := fun _ => .inr rfl }
  · simp only [outstanding, List.count_append, hbatch, Option.getD_some, Option.getD_none,
      List.count_nil]
    have := hc R
    omega
  · simp only [outstanding, List.length_append, List.length_map, List.length_drop,
      Option.getD_some, List.length_take]
    omega
  · cases Option.some.inj h
    simp only [List.length_take]
    omega
  · obtain ⟨hread, hnmr, hmr, -⟩ := hW.dying hdy
    simp [hread, hnmr, hmr, hq]

/-- `poke_mr` fails no assertion; it launches its batch from the head of the MR queue, and
leaves queued MRs something to wake them. -/
theorem Books.pokeMr (hW : W.Books) (hd : ℕ) :
    ∃ D' es, Kvlds.pokeMr hd W.D = some (D', es) ∧ (W.record D' es).Inv := by
  have hn := hW.nrequests_eq
  have hm := hW.le_maxreqs
  have hq := hW.mrQlen
  obtain ⟨⟨D', es⟩, h⟩ : ∃ r, Kvlds.pokeMr hd W.D = some r := pokeMr_isSome hq (by omega)
  refine ⟨D', es, h, ?_⟩
  obtain ⟨-, ⟨hl, hlen, rfl, rfl⟩ | ⟨hl, rfl, rfl⟩⟩ := pokeMr_eq_some h
  · -- a batch of the first `n` queued MRs is launched, none being in progress
    simp only [DispatchState.launchable, Bool.and_eq_true, Bool.not_eq_eq_eq_not,
      Bool.not_true] at hl
    exact hW.launchBatch hl.1 hlen
  · -- no batch: at most the group-commit timer starts
    simp only [record_nil, startMrTimer_eq]
    refine
      { hW with
        dying := fun (hdy : W.D.dying = true) => ?_
        wakes := fun (hne : W.D.mrQueue ≠ []) => ?_ }
    · obtain ⟨hread, hnmr, hmr, htimer⟩ := hW.dying hdy
      simp [hread, hnmr, hmr, htimer, hq]
    · have hpos : 0 < W.D.mrQlen := hq ▸ List.length_pos_iff.mpr hne
      cases hin : W.D.mrInprogress
      · -- nothing in progress, so the timer has not expired and is started now
        simp only [DispatchState.launchable, hin, Bool.not_false, Bool.true_and, Bool.or_eq_false_iff] at hl
        simp [hl.1.1, hpos]
      · exact .inr rfl

/-- `poke_nmr` launches NMRs from the head of their queue, within `nmr_concurrency` pages
unless one NMR touches them all. -/
theorem Inv.pokeNmr (hW : W.Inv) (hs pagelen : ℕ) :
    (W.record (Kvlds.pokeNmr hs pagelen W.D).1 (Kvlds.pokeNmr hs pagelen W.D).2).Inv := by
  have hn := hW.nrequests_eq
  obtain ⟨L, hq, hes, hip, hfit⟩ := pokeNmrLoop_spec hs pagelen W.D.nmrConcurrency W.nmrs
    W.D.nmrIp W.D.nmrQueue hW.nmrIp hW.nmrFit
  simp only [Kvlds.pokeNmr, record, hes, foldl_launchNmr]
  generalize pokeNmrLoop hs pagelen W.D.nmrConcurrency W.D.nmrIp W.D.nmrQueue = r at hq hip hfit
  refine
    { hW with
      ledger := perm_of_counts hW.ledger fun R => ?_
      nrequests := ?_
      nmrIp := hip
      nmrFit := hfit
      nmrOrder := by rw [List.append_assoc, ← hq]; exact hW.nmrOrder
      dying := fun (hdy : W.D.dying = true) => ?_ }
  · simp only [outstanding, hq, List.count_append, List.map_append]
    omega
  · simp only [outstanding, List.length_append, List.length_map]
    rw [hq, List.length_append, List.length_map] at hn
    omega
  · obtain ⟨hread, hnmr, hmr, htimer⟩ := hW.dying hdy
    rw [hnmr, eq_comm, List.append_eq_nil_iff] at hq
    exact ⟨hread, hq.2, hmr, htimer⟩

/-- A request read into the MR queue, owed a response. -/
theorem Books.enqueueMr (hW : W.Books) (hmax : W.D.nrequests ≠ maxreqs) (hdy : W.D.dying = false)
    (R : ProtoKvldsRequest) :
    (W.record { W.D with
        nrequests := W.D.nrequests + 1
        mrQueue := W.D.mrQueue ++ [R]
        mrQlen := W.D.mrQlen + 1 } [.read R]).Books := by
  have hn := hW.nrequests_eq
  have hm := hW.le_maxreqs
  simp only [record, List.foldl_cons, List.foldl_nil, effect]
  refine
    { hW with
      ledger := perm_of_counts hW.ledger fun R' => ?_
      nrequests := ?_
      le_maxreqs := by dsimp only; omega
      mrQlen := by simp [hW.mrQlen]
      nmrOrder := hW.nmrOrder.trans (List.sublist_append_left _ _)
      mrOrder := by rw [← List.append_assoc]; exact hW.mrOrder.append (List.Sublist.refl _)
      dying := dying_vacuous hdy }
  · simp only [outstanding, List.count_append]
    omega
  · simp only [outstanding, List.length_append, List.length_map, List.length_singleton]
    omega

/-- A request read into the NMR queue, owed a response. -/
theorem Inv.enqueueNmr (hW : W.Inv) (hmax : W.D.nrequests ≠ maxreqs) (hdy : W.D.dying = false)
    (R : ProtoKvldsRequest) :
    (W.record { W.D with
        nrequests := W.D.nrequests + 1
        nmrQueue := W.D.nmrQueue ++ [R] } [.read R]).Inv := by
  have hn := hW.nrequests_eq
  have hm := hW.le_maxreqs
  simp only [record, List.foldl_cons, List.foldl_nil, effect]
  refine
    { hW with
      ledger := perm_of_counts hW.ledger fun R' => ?_
      nrequests := ?_
      le_maxreqs := by dsimp only; omega
      nmrOrder := by rw [← List.append_assoc]; exact hW.nmrOrder.append (List.Sublist.refl _)
      mrOrder := hW.mrOrder.trans (List.sublist_append_left _ _)
      dying := dying_vacuous hdy }
  · simp only [outstanding, List.count_append]
    omega
  · simp only [outstanding, List.length_append, List.length_map, List.length_singleton]
    omega

/-- A PARAMS read and answered at once. -/
theorem Inv.readAnswered (hW : W.Inv) (R : ProtoKvldsRequest) (kmax vmax : ℕ) :
    (W.record W.D [.read R, .respondParams R kmax vmax]).Inv := by
  simp only [record, List.foldl_cons, List.foldl_nil, effect]
  refine
    { hW with
      ledger := perm_of_counts hW.ledger fun R' => ?_
      nmrOrder := hW.nmrOrder.trans (List.sublist_append_left _ _)
      mrOrder := hW.mrOrder.trans (List.sublist_append_left _ _) }
  simp only [outstanding, List.count_append]
  omega

/-- A request read and freed at once, its key or value being too long. -/
theorem Books.readFreed (hW : W.Books) (R : ProtoKvldsRequest) :
    (W.record W.D [.read R, .free R]).Books := by
  simp only [record, List.foldl_cons, List.foldl_nil, effect]
  refine
    { hW with
      ledger := perm_of_counts hW.ledger fun R' => ?_
      nmrOrder := hW.nmrOrder.trans (List.sublist_append_left _ _)
      mrOrder := hW.mrOrder.trans (List.sublist_append_left _ _) }
  simp only [outstanding, List.count_append]
  omega

/-- The loop of `gotrequest` on a connection that is not dying fails no assertion and keeps the
invariant: by induction on the reads, each request taken keeps it through the poke of its
queue. -/
theorem Inv.gotrequestLoop (hd hs pagelen : ℕ) :
    ∀ (rs : List (Option ProtoKvldsRequest)) {W : KWorld}, W.Inv → W.D.dying = false →
      ∃ D' es, Kvlds.gotrequestLoop hd hs pagelen W.D rs = some (D', es) ∧ (W.record D' es).Inv := by
  intro rs
  induction rs with
  | nil =>
    intro W hW _
    exact ⟨Kvlds.readreqs W.D, [], by rw [Kvlds.gotrequestLoop]; split_ifs <;> rfl, hW.readreqs⟩
  | cons r rs ih =>
    intro W hW hdy
    by_cases hmax : W.D.nrequests = maxreqs
    · exact ⟨Kvlds.readreqs W.D, [], by cases r <;> rw [Kvlds.gotrequestLoop, if_pos hmax],
        hW.readreqs⟩
    cases r with
    | none =>
      exact ⟨_, _, by rw [Kvlds.gotrequestLoop, if_neg hmax], hW.toBooks.dropconnection⟩
    | some R =>
      rw [Kvlds.gotrequestLoop, if_neg hmax]
      dsimp only
      have hD : { W.D with nrequests := W.D.nrequests + 1 - 1 } = W.D := by
        simp only [Nat.add_sub_cancel]
      split_ifs with hparams hlong hmr
      · -- PARAMS: answered at once, and the loop goes on
        rw [hD]
        obtain ⟨D', es, h, hinv⟩ := ih (hW.readAnswered R W.D.kmax W.D.vmax) hdy
        refine ⟨D', _, by rw [record_D] at h; rw [h]; rfl, ?_⟩
        rwa [record_record] at hinv
      · -- `drop2`: the request is freed and the connection dropped
        rw [hD]
        refine ⟨_, _, rfl, ?_⟩
        have := (hW.toBooks.readFreed R).dropconnection
        rwa [record_record, record_D] at this
      · -- an MR joins its queue, which is poked
        obtain ⟨D₂, es₂, hpoke, hinv₂⟩ := (hW.toBooks.enqueueMr hmax hdy R).pokeMr hd
        rw [record_D] at hpoke
        obtain ⟨D', es, h, hinv⟩ := ih hinv₂ ((pokeMr_dying hpoke).trans hdy)
        refine ⟨D', _, by rw [hpoke]; dsimp only; rw [record_D] at h; rw [h]; rfl, ?_⟩
        rwa [record_record, record_record] at hinv
      · -- an NMR joins its queue, which is poked
        have hinv₁ := (hW.enqueueNmr hmax hdy R).pokeNmr hs pagelen
        rw [record_D] at hinv₁
        obtain ⟨D', es, h, hinv⟩ := ih hinv₁ hdy
        refine ⟨D', _, by rw [record_D] at h; rw [h]; rfl, ?_⟩
        rwa [record_record, record_record] at hinv

/-! ### What each callback keeps -/

/-- `gotrequest`: the wait is over; a failed one drops the connection, and otherwise the loop
takes the requests read. -/
theorem Inv.gotrequest (hW : W.Inv) (hreading : W.D.reading = true) (hd hs pagelen : ℕ)
    (failed : Bool) (rs : List (Option ProtoKvldsRequest)) :
    ∃ D' es, Kvlds.gotrequest hd hs pagelen W.D failed rs = some (D', es) ∧
      (W.record D' es).Inv := by
  have hdy : W.D.dying = false := by
    cases h : W.D.dying
    · rfl
    · simp [(hW.dying h).1] at hreading
  have hW₁ : { W with D := { W.D with reading := false } }.Inv :=
    { hW with dying := dying_vacuous hdy }
  cases failed
  · obtain ⟨D', es, h, hinv⟩ := hW₁.gotrequestLoop hd hs pagelen rs hdy
    rw [record_setD] at hinv
    exact ⟨D', es, h, hinv⟩
  · have hinv := hW₁.toBooks.dropconnection
    rw [record_setD] at hinv
    exact ⟨_, _, rfl, hinv⟩

/-- `callback_nmr_done`: the NMR `x` is answered and its pages released, and the dispatcher reads
on and launches more NMRs. -/
theorem Inv.nmrDone (hW : W.Inv) {x : ProtoKvldsRequest × ℕ} (hx : x ∈ W.nmrs) (hs pagelen : ℕ) :
    ({ W with nmrs := W.nmrs.erase x, answered := W.answered ++ [x.1] }.record
      (callbackNmrDone hs pagelen W.D x.2).1 (callbackNmrDone hs pagelen W.D x.2).2).Inv := by
  have hn := hW.nrequests_eq
  have hm := hW.le_maxreqs
  have hperm := List.perm_cons_erase hx
  have hsum : (W.nmrs.map (·.2)).sum = x.2 + ((W.nmrs.erase x).map (·.2)).sum := by
    simpa using (hperm.map (·.2)).sum_eq
  have hlen := List.length_erase_of_mem hx
  have hpos : 0 < W.nmrs.length := List.length_pos_of_mem hx
  have hip := hW.nmrIp
  -- the NMR leaves the outstanding requests and its pages leave `nmr_ip`
  have hW₁ : { ({ W with nmrs := W.nmrs.erase x, answered := W.answered ++ [x.1] } : KWorld) with
      D := { W.D with nmrIp := W.D.nmrIp - x.2, nrequests := W.D.nrequests - 1 } }.Inv := by
    refine
      { hW with
        ledger := perm_of_counts hW.ledger fun R => ?_
        nrequests := ?_
        le_maxreqs := by dsimp only; omega
        nmrIp := by dsimp only; omega
        nmrFit := ?_ }
    · have hc := (hperm.map (·.1)).count_eq R
      simp only [outstanding, List.count_append, List.map_cons, List.count_cons,
        List.count_nil] at hc ⊢
      omega
    · simp only [outstanding, List.length_append, List.length_map]
      omega
    · -- the pages exceed the limit only where the one NMR that touches them all is still on
      dsimp only
      rcases hW.nmrFit with hle | ⟨y, hy, hyip⟩
      · exact .inl (by omega)
      · by_cases hyx : y = x
        · subst hyx
          exact .inl (by omega)
        · have hy' : y ∈ W.nmrs.erase x := (List.mem_erase_of_ne hyx).mpr hy
          have : y.2 ≤ ((W.nmrs.erase x).map (·.2)).sum :=
            List.le_sum_of_mem (List.mem_map_of_mem hy')
          exact .inr ⟨y, hy', by omega⟩
  have hinv := hW₁.readreqs.pokeNmr hs pagelen
  rw [record_setD, record_setD] at hinv
  exact hinv

/-- `callback_mr_done`: the batch's requests are answered, and the dispatcher reads on and pokes
the MR queue. -/
theorem Inv.mrDone (hW : W.Inv) {reqs : List ProtoKvldsRequest} (hbatch : W.batch = some reqs)
    (hd : ℕ) :
    ∃ D' es, callbackMrDone hd W.D = some (D', es) ∧
      ({ W with batch := none, answered := W.answered ++ reqs }.record D' es).Inv := by
  have hn := hW.nrequests_eq
  have hm := hW.le_maxreqs
  have hreqs := hW.mrReqs reqs hbatch
  rw [hbatch, Option.getD_some] at hn
  have hW₁ : { ({ W with batch := none, answered := W.answered ++ reqs } : KWorld) with
      D := { W.D with nrequests := W.D.nrequests - W.D.mrReqs, mrInprogress := false } }.Books :=
    { hW with
      ledger := perm_of_counts hW.ledger fun R => by
        simp only [outstanding, List.count_append, hbatch, Option.getD_some, Option.getD_none,
          List.count_nil]
        omega
      nrequests := by
        simp only [outstanding, List.length_append, List.length_map, Option.getD_none,
          List.length_nil]
        omega
      le_maxreqs := by dsimp only; omega
      inprogress := rfl
      mrReqs := fun _ h => by cases h }
  obtain ⟨D', es, h, hinv⟩ := hW₁.readreqs.pokeMr hd
  rw [record_setD, record_setD] at hinv
  exact ⟨D', es, h, hinv⟩

/-- `callback_mr_timer`: the group-commit timer has expired, and the MR queue is poked. -/
theorem Inv.mrTimer (hW : W.Inv) (hd : ℕ) :
    ∃ D' es, callbackMrTimer hd W.D = some (D', es) ∧ (W.record D' es).Inv := by
  have hW₁ : { W with D := { W.D with mrTimerExpired := true, mrTimer := false } }.Books :=
    { hW with dying := fun (h : W.D.dying = true) => ⟨(hW.dying h).1, (hW.dying h).2.1, (hW.dying h).2.2.1, rfl⟩ }
  obtain ⟨D', es, h, hinv⟩ := hW₁.pokeMr hd
  rw [record_setD] at hinv
  exact ⟨D', es, h, hinv⟩

/-- `callback_mrc_timer`: the cleaning timer is started again, or a batch is asked for and the MR
queue poked. -/
theorem Inv.mrcTimer (hW : W.Inv) (possible : Bool) (hd : ℕ) :
    ∃ D' es, callbackMrcTimer possible hd W.D = some (D', es) ∧ (W.record D' es).Inv := by
  cases possible
  · have hW₁ : { W with D := { W.D with mrcTimer := true } }.Inv := { hW with }
    exact ⟨_, _, rfl, hW₁⟩
  · have hW₁ : { W with D := { W.D with mrcTimer := false, docleans := true } }.Books :=
      { hW with }
    obtain ⟨D', es, h, hinv⟩ := hW₁.pokeMr hd
    rw [record_setD] at hinv
    exact ⟨D', es, h, hinv⟩

/-- `callback_accept`: the connection is accepted, and the dispatcher starts reading. -/
theorem Inv.accept (hW : W.Inv) : (W.record (callbackAccept W.D) []).Inv :=
  have hW₁ : { W with D := { W.D with reader := true } }.Inv := { hW with }
  hW₁.readreqs

/-! ### The invariant over every run -/

theorem Inv.init (poolsz pagelen kmax vmax g : ℕ) : (init poolsz pagelen kmax vmax g).Inv where
  ledger := List.Perm.refl _
  nrequests := rfl
  le_maxreqs := Nat.zero_le _
  mrQlen := rfl
  nmrIp := rfl
  nmrFit := .inl (Nat.zero_le _)
  inprogress := rfl
  mrReqs := fun _ h => by cases h
  nmrOrder := List.Sublist.slnil
  mrOrder := List.Sublist.slnil
  dying := fun h => by cases h
  wakes := fun h => absurd rfl h

/-- Every callback keeps the invariant: the step case of the run lemma. -/
theorem Inv.step {crc : List UInt8 → Fin 4 → UInt8} {pagelen : ℕ} {W W' : KWorld} (hW : W.Inv)
    (hstep : KStep crc pagelen W W') : W'.Inv := by
  cases hstep with
  | accept => exact hW.accept
  | gotrequest hd hs failed data hreading h =>
    obtain ⟨D', es, h', hinv⟩ := hW.gotrequest hreading hd hs pagelen failed
      (protoKvldsRequestReads crc data)
    rw [h, Option.some.injEq, Prod.mk.injEq] at h'
    rwa [h'.1, h'.2]
  | writeFailed => exact hW.toBooks.dropconnection
  | nmrDone hs hx => exact hW.nmrDone hx hs pagelen
  | mrDone hd hbatch h =>
    obtain ⟨D', es, h', hinv⟩ := hW.mrDone hbatch hd
    rw [h, Option.some.injEq, Prod.mk.injEq] at h'
    rwa [h'.1, h'.2]
  | mrTimer hd _ h =>
    obtain ⟨D', es, h', hinv⟩ := hW.mrTimer hd
    rw [h, Option.some.injEq, Prod.mk.injEq] at h'
    rwa [h'.1, h'.2]
  | mrcTimer possible hd _ h =>
    obtain ⟨D', es, h', hinv⟩ := hW.mrcTimer possible hd
    rw [h, Option.some.injEq, Prod.mk.injEq] at h'
    rwa [h'.1, h'.2]

/-- Once `dispatch_alive` is false, the assertions of `dispatch_done` hold. -/
theorem Inv.dispatchDone (hW : W.Inv) (h : dispatchAlive W.D = false) :
    Kvlds.dispatchDone W.D = some () := by
  simp only [dispatchAlive, Bool.or_eq_false_iff, Bool.not_eq_false', decide_eq_false_iff_not,
    not_lt, Nat.le_zero] at h
  obtain ⟨hread, -, -, htimer⟩ := hW.dying h.1
  simp [Kvlds.dispatchDone, h.1, h.2, hread, htimer]

end KWorld

/-- The invariant holds in every world of the dispatcher. -/
theorem KReachable.inv {crc : List UInt8 → Fin 4 → UInt8} {pagelen : ℕ} {W : KWorld}
    (h : KReachable crc pagelen W) : W.Inv :=
  h.invariant (fun _ ⟨poolsz, kmax, vmax, g, hW⟩ => hW ▸ KWorld.Inv.init poolsz pagelen kmax vmax g)
    (fun _ _ hW hstep => hW.step hstep)

/-- In every world of the dispatcher its invariant holds; no callback that can run fails an
assertion; and once `dispatch_alive` is false, the assertions of `dispatch_done` hold. -/
theorem kvldsDispatch_safe {crc : List UInt8 → Fin 4 → UInt8} {pagelen : ℕ} {W : KWorld}
    (h : KReachable crc pagelen W) :
    W.Inv ∧
      (W.D.reading = true → ∀ hd hs failed data,
        (gotrequest hd hs pagelen W.D failed (protoKvldsRequestReads crc data)).isSome) ∧
      (W.batch.isSome → ∀ hd, (callbackMrDone hd W.D).isSome) ∧
      (∀ hd, (callbackMrTimer hd W.D).isSome) ∧
      (∀ possible hd, (callbackMrcTimer possible hd W.D).isSome) ∧
      (dispatchAlive W.D = false → dispatchDone W.D = some ()) := by
  have hW := h.inv
  refine ⟨hW, fun hreading hd hs failed data => ?_, fun hbatch hd => ?_, fun hd => ?_,
    fun possible hd => ?_, hW.dispatchDone⟩
  · obtain ⟨D', es, h', -⟩ := hW.gotrequest hreading hd hs pagelen failed
      (protoKvldsRequestReads crc data)
    simp [h']
  · obtain ⟨reqs, hreqs⟩ := Option.isSome_iff_exists.mp hbatch
    obtain ⟨D', es, h', -⟩ := hW.mrDone hreqs hd
    simp [h']
  · obtain ⟨D', es, h', -⟩ := hW.mrTimer hd
    simp [h']
  · obtain ⟨D', es, h', -⟩ := hW.mrcTimer possible hd
    simp [h']

/-! ## A connection's run -/

/-- Five requests a client sends: a GET, a SET, a PARAMS, a RANGE and a DELETE. -/
def fiveRequests : List ProtoKvldsRequest :=
  [⟨1, .get (.single 1)⟩, ⟨2, .set (.single 2) (.single 7)⟩, ⟨3, .params⟩,
    ⟨4, .range 1000 .empty (.single 9)⟩, ⟨5, .delete (.single 3)⟩]

/-- A dispatcher over a pool of 800 pages of 4096 bytes that batches MRs two at a time, its
connection accepted. -/
def acceptedWorld : KWorld :=
  (KWorld.init 800 4096 255 255 2).record (callbackAccept (KWorld.init 800 4096 255 255 2).D) []

/-- The five requests read with both roots at height 1: PARAMS is answered, the GET launched, the
RANGE queued behind it for want of pages, and the SET and the DELETE launched as one batch. -/
def busyWorld : KWorld :=
  (gotrequest 1 1 4096 acceptedWorld.D false (fiveRequests.map some)).elim acceptedWorld
    fun r => acceptedWorld.record r.1 r.2

/-- The GET completes, and the RANGE is launched alone though its pages exceed the limit. -/
def rangeWorld : KWorld :=
  { busyWorld with
    nmrs := busyWorld.nmrs.erase ((⟨1, .get (KVLDSKey.single 1)⟩ : ProtoKvldsRequest), 2)
    answered := busyWorld.answered ++ [(⟨1, .get (KVLDSKey.single 1)⟩ : ProtoKvldsRequest)] }.record
    (callbackNmrDone 1 4096 busyWorld.D 2).1 (callbackNmrDone 1 4096 busyWorld.D 2).2

/-- The batch completes, its SET and DELETE answered. -/
def answeredWorld : KWorld :=
  (callbackMrDone 1 rangeWorld.D).elim rangeWorld fun r =>
    { rangeWorld with
      batch := none
      answered := rangeWorld.answered ++ rangeWorld.batch.getD [] }.record r.1 r.2

/-- What the run computes at each step: the requests the reader hands over, the GET among the
NMRs, the batch and its completion, and the world it ends in. -/
theorem answeredWorld_run :
    (gotrequest 1 1 4096 acceptedWorld.D false (fiveRequests.map some)).isSome ∧
      (∀ R ∈ fiveRequests, R.ID < 2 ^ 64) ∧
      ((⟨1, .get (KVLDSKey.single 1)⟩ : ProtoKvldsRequest), 2) ∈ busyWorld.nmrs ∧
      rangeWorld.batch.isSome ∧ (callbackMrDone 1 rangeWorld.D).isSome ∧
      answeredWorld.read.map (·.ID) = [1, 2, 3, 4, 5] ∧
      answeredWorld.answered.map (·.ID) = [3, 1, 2, 5] ∧
      answeredWorld.nmrs.map (fun x => (x.1.ID, x.2)) = [(4, 205)] ∧
      answeredWorld.D.nmrConcurrency = 200 ∧ answeredWorld.D.nrequests = 1 := by
  decide +kernel

theorem reachable_answeredWorld : KReachable Wire.byteSumCrc 4096 answeredWorld := by
  obtain ⟨hreads, hids, hget, hbatch, hdone, -⟩ := answeredWorld_run
  have h₀ : KReachable Wire.byteSumCrc 4096 (KWorld.init 800 4096 255 255 2) :=
    .init ⟨800, 255, 255, 2, rfl⟩
  have h₁ : KReachable Wire.byteSumCrc 4096 acceptedWorld := h₀.tail (.accept rfl)
  -- the client's packets, read back by the reader
  obtain ⟨⟨D, es⟩, hread⟩ := Option.isSome_iff_exists.mp hreads
  have h₂ : KReachable Wire.byteSumCrc 4096 busyWorld := by
    rw [busyWorld, hread]
    refine h₁.tail (.gotrequest 1 1 false
      (Wire.writtenStream Wire.byteSumCrc (fiveRequests.map fun R => (R.ID, clientRequest R.fields)))
      rfl ?_)
    rwa [protoKvldsRequestReads_writtenStream _ _ hids]
  have h₃ : KReachable Wire.byteSumCrc 4096 rangeWorld := h₂.tail (.nmrDone 1 hget)
  obtain ⟨reqs, hbatch⟩ := Option.isSome_iff_exists.mp hbatch
  obtain ⟨⟨D', es'⟩, hdone⟩ := Option.isSome_iff_exists.mp hdone
  rw [answeredWorld, hdone, Option.elim_some, hbatch, Option.getD_some]
  exact h₃.tail (.mrDone 1 hbatch hdone)

/-- The run leaves the RANGE alone in progress, over 205 pages against a limit of 200, with the
other four requests answered. -/
theorem kvldsDispatch_safe_answeredWorld :
    (answeredWorld.read.map (·.ID) = [1, 2, 3, 4, 5] ∧
        answeredWorld.answered.map (·.ID) = [3, 1, 2, 5] ∧
        answeredWorld.nmrs.map (fun x => (x.1.ID, x.2)) = [(4, 205)] ∧
        answeredWorld.D.nmrConcurrency = 200 ∧ answeredWorld.D.nrequests = 1) ∧
      answeredWorld.Inv ∧
      (answeredWorld.D.reading = true → ∀ hd hs failed data,
        (gotrequest hd hs 4096 answeredWorld.D failed
          (protoKvldsRequestReads Wire.byteSumCrc data)).isSome) ∧
      (answeredWorld.batch.isSome → ∀ hd, (callbackMrDone hd answeredWorld.D).isSome) ∧
      (∀ hd, (callbackMrTimer hd answeredWorld.D).isSome) ∧
      (∀ possible hd, (callbackMrcTimer possible hd answeredWorld.D).isSome) ∧
      (dispatchAlive answeredWorld.D = false → dispatchDone answeredWorld.D = some ()) :=
  ⟨answeredWorld_run.2.2.2.2.2, kvldsDispatch_safe reachable_answeredWorld⟩

/-! ## A cleaning batch outlives the dispatcher -/

/-- The cleaning timer fires before any request, with the cleaner able to clean: `poke_mr`
launches an empty batch. -/
def cleaningWorld : KWorld :=
  (callbackMrcTimer true 0 (KWorld.init 800 4096 255 255 2).D).elim
    (KWorld.init 800 4096 255 255 2) fun r => (KWorld.init 800 4096 255 255 2).record r.1 r.2

/-- The connection is then accepted, and the wait for its first request fails. -/
def droppedWorld : KWorld :=
  let W := cleaningWorld.record (callbackAccept cleaningWorld.D) []
  W.record (dropconnection { W.D with reading := false }).1
    (dropconnection { W.D with reading := false }).2

/-- `dispatch_alive` looks at the responses owed, and a cleaning batch owes none: after this run
it reports the dispatcher dead while the batch is in progress, so that `main` frees the state
with `dispatch_done` before `callback_mr_done`, which can still run, uses it. -/
theorem dispatchAlive_cleaningBatch (crc : List UInt8 → Fin 4 → UInt8) :
    KReachable crc 4096 droppedWorld ∧ dispatchAlive droppedWorld.D = false ∧
      droppedWorld.D.mrInprogress = true ∧ droppedWorld.batch = some [] ∧
      ∃ W, KStep crc 4096 droppedWorld W := by
  have h₀ : KReachable crc 4096 (KWorld.init 800 4096 255 255 2) := .init ⟨800, 255, 255, 2, rfl⟩
  obtain ⟨⟨D, es⟩, hclean⟩ := Option.isSome_iff_exists.mp
    (show (callbackMrcTimer true 0 (KWorld.init 800 4096 255 255 2).D).isSome by decide)
  have h₁ : KReachable crc 4096 cleaningWorld := by
    rw [cleaningWorld, hclean, Option.elim_some]
    exact h₀.tail (.mrcTimer true 0 rfl hclean)
  have h₂ := h₁.tail (.accept (by decide))
  have h₃ : KReachable crc 4096 droppedWorld :=
    h₂.tail (.gotrequest 0 0 true [] (by decide) rfl)
  obtain ⟨⟨D', es'⟩, hdone⟩ := Option.isSome_iff_exists.mp
    (show (callbackMrDone 0 droppedWorld.D).isSome by decide)
  have hbatch : droppedWorld.batch = some [] := by decide
  exact ⟨h₃, by decide, by decide, hbatch, _, .mrDone 0 hbatch hdone⟩

end Kivaloo.Kvlds
