import Mathlib
import Kivaloo.Lib.Transition

/-!
# The DynamoDB request queue (lib/dynamodb/dynamodb_request_queue.c)

Requests wait in a heap ordered by `compar`: the requests without a timeout pending first, then
by priority, then by arrival.  A request is in one of three states: waiting to be sent, in
progress (an HTTP request and a timeout pending), or failed and waiting for its timeout before it
may be sent again (only the timeout pending).  `runqueue` sends the least request while the
modelled token bucket and the burst limit allow one more request in flight; a timeout cancels the
HTTP request in flight and makes the request wait again; a response that is neither a DynamoDB
internal error (5xx) nor "ProvisionedThroughputExceededException" ends the request and goes to
its callback.

The rate-limiting state is kept in doubles, as the source keeps it, over an arithmetic given as a
parameter (`DoubleArith`): the daemon's is `Float`, and what is proved holds for any.  The clock
is an input; timers and responses arrive in any order.  The HTTP layer, the server pool, the keys, the
request bodies and the log file are left out, and so are the failures of allocations, of the
clock and of event registration, each of which ends the daemon.

In every reachable state, `inflight` counts the requests in progress, a request with an HTTP
request in flight has its timeout pending, and each request ever queued is exactly one of still
queued, answered once through its callback, or dropped by a flush (`reachable_requests`).  Each
`runqueue` sends waiting requests only, in order of priority and arrival, and leaves waiting only
requests that come after all of those it sent (`reachable_runqueue_order`).
-/

namespace Kivaloo.Dynamodb

open Kivaloo.Lib

/-- The arithmetic of `double` that the queue does: the operations, the comparisons, the literals
and the conversions from integers. -/
class DoubleArith (F : Type) extends Add F, Sub F, Mul F, Div F, LT F, LE F, BEq F, OfScientific F where
  /-- `(double)n` for an unsigned `n`. -/
  ofNat : ℕ → F
  /-- `(double)n` for a signed `n`. -/
  ofInt : ℤ → F
  decLt : ∀ a b : F, Decidable (a < b)
  decLe : ∀ a b : F, Decidable (a ≤ b)

instance DoubleArith.instDecidableLt {F : Type} [DoubleArith F] (a b : F) : Decidable (a < b) :=
  DoubleArith.decLt a b

instance DoubleArith.instDecidableLe {F : Type} [DoubleArith F] (a b : F) : Decidable (a ≤ b) :=
  DoubleArith.decLe a b

/-- The daemon's doubles. -/
instance : DoubleArith Float where
  ofNat := Float.ofNat
  ofInt := Float.ofInt
  decLt := Float.decLt
  decLe := Float.decLe

/-- Exact arithmetic, in which runs of the queue can be computed. -/
instance : DoubleArith ℚ where
  ofNat n := n
  ofInt n := n
  decLt a b := inferInstanceAs (Decidable (a < b))
  decLe a b := inferInstanceAs (Decidable (a ≤ b))

/-- `struct request`, as far as the queue reads it: the priority and arrival number, the number of
attempts, when the last attempt started, and whether an HTTP request (`http_cookie`) and a timeout
(`timeout_cookie`) are pending. -/
structure Request (F : Type) where
  prio : ℤ
  reqnum : ℕ
  ntries : ℕ
  tStart : F
  http : Bool
  timeout : Bool
deriving DecidableEq, Repr

/-- `struct dynamodb_request_queue`: the rate-limiting and timeout statistics, whether the
capacity timer and the immediate callback are pending, the number of requests in flight, the
requests of the heap `reqs`, and the next arrival number. -/
structure Queue (F : Type) where
  muCapperreq : F
  cappers : F
  spercap : F
  bucketCap : F
  bucketCapLastbump : F
  maxburstCap : F
  timerPending : Bool
  immediatePending : Bool
  inflight : ℕ
  reqs : List (Request F)
  reqnum : ℕ
  tmu : F
  tmud : F
deriving Repr

/-- What the queue reads of a DynamoDB response: the HTTP status and body length, what
`extractcapacity` finds (`ConsumedCapacity.CapacityUnits`, 0 where absent or outside [0, 400]),
and what `dynamodb_request_extracterror` finds, read for status 400 only. -/
structure Response (F : Type) where
  status : ℕ
  bodylen : ℕ
  capacity : F
  ddberr : String
deriving Repr

variable {F : Type}

/-- `compar(cookie, x, y)`: requests with a timeout pending after the others, then by priority,
then by arrival. -/
def compar (x y : Request F) : ℤ :=
  if x.timeout && !y.timeout then 1
  else if !x.timeout && y.timeout then -1
  else if x.prio > y.prio then 1
  else if x.prio < y.prio then -1
  else if x.reqnum > y.reqnum then 1
  else -1

/-- `ptrheap_getmin(Q->reqs)`: a least request under `compar`. -/
def getmin : List (Request F) → Option (Request F)
  | [] => none
  | r :: rs => some <| match getmin rs with
    | none => r
    | some m => if compar r m < 0 then r else m

/-- The request with arrival number `n` changes by `f`. -/
def Queue.modify (Q : Queue F) (n : ℕ) (f : Request F → Request F) : Queue F :=
  { Q with reqs := Q.reqs.map fun r => if r.reqnum = n then f r else r }

/-- `poke(Q)`: an immediate callback is pending. -/
def poke (Q : Queue F) : Queue F := { Q with immediatePending := true }

/-- `dynamodb_request_queue_setcapacity(Q, capacity)`. -/
def dynamodbRequestQueueSetcapacity [DoubleArith F] (Q : Queue F) (capacity : ℤ) : Queue F :=
  { Q with
    cappers := if capacity > 0 then DoubleArith.ofInt capacity else 1000000.0
    spercap := if capacity > 0 then 1.0 / DoubleArith.ofInt capacity else 0.0
    maxburstCap := if capacity > 0 ∧ capacity < 100 then DoubleArith.ofInt capacity * 5.0 else 500.0 }

/-- `dynamodb_request_queue_init(key_id, key_secret, region, SP)` at time `tnow`. -/
def dynamodbRequestQueueInit [DoubleArith F] (tnow : F) : Queue F :=
  let Q : Queue F := ⟨1.0, 0.0, 0.0, 300.0 * 50000.0, 0.0, 0.0, false, false, 0, [], 0, 1.0, 0.25⟩
  { dynamodbRequestQueueSetcapacity Q 0 with bucketCapLastbump := tnow }

/-- `dynamodb_request_queue(Q, prio, ...)`: the request joins the heap with the next arrival
number, which is returned. -/
def dynamodbRequestQueue [DoubleArith F] (Q : Queue F) (prio : ℤ) : Queue F × ℕ :=
  let R : Request F := ⟨prio, Q.reqnum, 0, 0.0, false, false⟩
  (poke { Q with reqs := Q.reqs ++ [R], reqnum := Q.reqnum + 1 }, Q.reqnum)

/-- `sendreq(Q, R)` at time `tnow`: the attempt is counted, its timeout set and its HTTP request
sent. -/
def sendreq (Q : Queue F) (R : Request F) (tnow : F) : Queue F :=
  { Q.modify R.reqnum (fun r => { r with tStart := tnow, ntries := r.ntries + 1, timeout := true, http := true }) with
    inflight := Q.inflight + 1 }

/-- The test of `runqueue`'s loop: one more request in flight is within the burst limit and
within the bucket. -/
def Queue.canSend [DoubleArith F] (Q : Queue F) : Bool :=
  decide (DoubleArith.ofNat (Q.inflight + 1) * Q.muCapperreq ≤ Q.maxburstCap) &&
    decide (DoubleArith.ofNat (Q.inflight + 1) * Q.muCapperreq ≤ Q.bucketCap)

/-- The loop of `runqueue`, with the requests it sends as they were before: send the least request
while there is capacity and it is waiting.  Each turn makes a waiting request wait no longer, so
`runqueue` gives it the number of requests as fuel (`runqueueLoop_stops`). -/
def runqueueLoop [DoubleArith F] (tnow : F) : ℕ → Queue F → Queue F × List (Request F)
  | 0, Q => (Q, [])
  | fuel + 1, Q =>
    if Q.canSend then
      match getmin Q.reqs with
      | none => (Q, [])
      | some R =>
        if R.timeout then (Q, [])
        else
          let r := runqueueLoop tnow fuel (sendreq Q R tnow)
          (r.1, R :: r.2)
    else (Q, [])

/-- The start of `runqueue(Q)` at time `tnow`: the bucket fills for the time since it last did. -/
def Queue.bump [DoubleArith F] (Q : Queue F) (tnow : F) : Queue F :=
  { Q with bucketCap := Q.bucketCap + (tnow - Q.bucketCapLastbump) * Q.cappers, bucketCapLastbump := tnow }

/-- `runqueue(Q)` at time `tnow`: the bucket fills, the loop sends, and the capacity timer starts
where the bucket is short of one more request. -/
def runqueue [DoubleArith F] (Q : Queue F) (tnow : F) : Queue F × List (Request F) :=
  let r := runqueueLoop tnow Q.reqs.length (Q.bump tnow)
  if !r.1.timerPending && decide (DoubleArith.ofNat (r.1.inflight + 1) * r.1.muCapperreq > r.1.bucketCap) then
    ({ r.1 with timerPending := true }, r.2)
  else r

/-- `poke_timer(Q)`. -/
def pokeTimer [DoubleArith F] (Q : Queue F) (tnow : F) : Queue F × List (Request F) :=
  runqueue { Q with timerPending := false } tnow

/-- `poke_immediate(Q)`. -/
def pokeImmediate [DoubleArith F] (Q : Queue F) (tnow : F) : Queue F × List (Request F) :=
  runqueue { Q with immediatePending := false } tnow

/-- `done_http(R, timedout)` for the request `n`: its HTTP request is no longer in flight. -/
def doneHttp (Q : Queue F) (n : ℕ) : Queue F :=
  { Q.modify n (fun r => { r with http := false }) with inflight := Q.inflight - 1 }

/-- `callback_timeout(R)`: the timeout has fired; an HTTP request still in flight is cancelled, and
the request waits to be sent again. -/
def callbackTimeout (Q : Queue F) (R : Request F) : Queue F :=
  let Q := Q.modify R.reqnum fun r => { r with timeout := false }
  poke (if R.http then doneHttp Q R.reqnum else Q)

/-- The capacity a response reports, where it has a body (`extractcapacity`). -/
def responseCapacity [DoubleArith F] : Option (Response F) → F
  | some r => if r.bodylen > 0 then r.capacity else 0.0
  | none => 0.0

/-- The DynamoDB error string, extracted from an HTTP 400 response. -/
def responseDdberr : Option (Response F) → Option String
  | some r => if r.status = 400 then some r.ddberr else none
  | none => none

/-- A capacity a response reports joins the rolling average and comes out of the bucket. -/
def Queue.consume [DoubleArith F] (Q : Queue F) (capacity : F) : Queue F :=
  if capacity != 0.0 then
    { Q with muCapperreq := Q.muCapperreq + (capacity - Q.muCapperreq) * 0.01, bucketCap := if Q.bucketCap - capacity < 0.0 then 0.0 else Q.bucketCap - capacity }
  else Q

/-- The request `R`, answered at time `tEnd`, leaves the heap; the timeout statistics follow TCP's
rolling averages of the mean and the mean deviation. -/
def Queue.finish [DoubleArith F] (Q : Queue F) (R : Request F) (tEnd : F) : Queue F :=
  let treq := tEnd - R.tStart
  let tmu := Q.tmu + (treq - Q.tmu) * 0.125
  let tmud := if treq > tmu then Q.tmud + ((treq - tmu) - Q.tmud) * 0.25 else Q.tmud + ((tmu - treq) - Q.tmud) * 0.25
  { Q with reqs := Q.reqs.filter (·.reqnum ≠ R.reqnum), tmu := tmu, tmud := tmud }

/-- `callback_reqdone(R, res)` at time `tEnd`: the HTTP request of `R` ends.  After
"ProvisionedThroughputExceededException" the bucket is emptied, and after a 5xx status or a failed
connection nothing more is done: the request is retried after its timeout.  Any other response
ends the request, which is returned with the response passed to its callback. -/
def callbackReqdone [DoubleArith F] (Q : Queue F) (R : Request F) (res : Option (Response F)) (tEnd : F) :
    Queue F × Option (Request F × Response F) :=
  let Q := doneHttp (Q.consume (responseCapacity res)) R.reqnum
  if responseDdberr res = some "ProvisionedThroughputExceededException" then
    (poke { Q with bucketCap := 0.0 }, none)
  else
    match res with
    | some r => if r.status < 500 then (poke (Q.finish R tEnd), some (R, r)) else (poke Q, none)
    | none => (poke Q, none)

/-- `dynamodb_request_queue_flush(Q)`: every request is dropped, and those in progress are
cancelled. -/
def dynamodbRequestQueueFlush (Q : Queue F) : Queue F :=
  { Q with reqs := [], inflight := Q.reqs.foldl (fun n r => if r.http then n - 1 else n) Q.inflight }

/-! ## The order of the heap -/

/-- The key `compar` sorts by: timeout pending, then priority, then arrival. -/
def ckey (r : Request F) : Bool ×ₗ ℤ ×ₗ ℕ := toLex (r.timeout, toLex (r.prio, r.reqnum))

/-- `x` is served before `y`: a lower priority, or the same priority and an earlier arrival. -/
def Request.Before (x y : Request F) : Prop :=
  x.prio < y.prio ∨ x.prio = y.prio ∧ x.reqnum < y.reqnum

/-- `compar` puts `x` first exactly when its key is at most that of `y`. -/
theorem compar_neg_iff (x y : Request F) : compar x y < 0 ↔ ckey x ≤ ckey y := by
  simp only [compar, ckey, Prod.Lex.toLex_le_toLex]
  rcases x with ⟨xp, xn, -, -, -, xt⟩
  rcases y with ⟨yp, yn, -, -, -, yt⟩
  cases xt <;> cases yt <;> simp <;> split_ifs <;> omega

theorem getmin_eq_none_iff {l : List (Request F)} : getmin l = none ↔ l = [] := by
  cases l <;> simp [getmin]

/-- `getmin` finds a least request under the order of `compar`. -/
theorem getmin_spec : ∀ {l : List (Request F)} {m : Request F}, getmin l = some m →
    m ∈ l ∧ ∀ r ∈ l, ckey m ≤ ckey r
  | [], _, h => by simp [getmin] at h
  | r :: rs, m, h => by
    simp only [getmin, Option.some.injEq] at h
    cases hrs : getmin rs with
    | none =>
      rw [getmin_eq_none_iff.mp hrs]
      rw [hrs] at h
      subst h
      simp
    | some m' =>
      obtain ⟨hm', hleast⟩ := getmin_spec hrs
      rw [hrs] at h
      dsimp only at h
      split_ifs at h with hr
      · -- `r` comes before the least of the rest
        subst h
        have hr := (compar_neg_iff _ _).mp hr
        refine ⟨List.mem_cons_self, fun x hx => ?_⟩
        rcases List.mem_cons.mp hx with rfl | hx
        · exact le_rfl
        · exact hr.trans (hleast x hx)
      · subst h
        have hlt : ckey m' ≤ ckey r := le_of_lt (not_le.mp (mt (compar_neg_iff _ _).mpr hr))
        refine ⟨List.mem_cons_of_mem _ hm', fun x hx => ?_⟩
        rcases List.mem_cons.mp hx with rfl | hx
        · exact hlt
        · exact hleast x hx

/-- Where the least request has its timeout pending, every request has. -/
theorem getmin_timeout {l : List (Request F)} {m : Request F} (h : getmin l = some m)
    (hm : m.timeout = true) : ∀ r ∈ l, r.timeout = true := by
  intro r hr
  have hle := (getmin_spec h).2 r hr
  simp only [ckey, Prod.Lex.toLex_le_toLex, hm] at hle
  rcases hle with hlt | ⟨heq, -⟩
  · exact absurd hlt (by simp)
  · exact heq.symm

/-- A least request that waits comes before every other request that waits. -/
theorem getmin_before {l : List (Request F)} {m : Request F} (h : getmin l = some m)
    (hm : m.timeout = false) :
    ∀ r ∈ l, r.timeout = false → r.reqnum ≠ m.reqnum → m.Before r := by
  intro r hr hwait hne
  have hle := (getmin_spec h).2 r hr
  simp only [ckey, Prod.Lex.toLex_le_toLex, hm, hwait, lt_self_iff_false, true_and,
    false_or] at hle
  unfold Request.Before
  omega

/-! ## What each operation does to the requests -/

section Fields

variable (Q : Queue F) (n : ℕ) (f : Request F → Request F)

@[simp] theorem modify_reqs : (Q.modify n f).reqs = Q.reqs.map fun r => if r.reqnum = n then f r else r := rfl
@[simp] theorem modify_inflight : (Q.modify n f).inflight = Q.inflight := rfl
@[simp] theorem modify_reqnum : (Q.modify n f).reqnum = Q.reqnum := rfl
@[simp] theorem poke_reqs : (poke Q).reqs = Q.reqs := rfl
@[simp] theorem poke_inflight : (poke Q).inflight = Q.inflight := rfl
@[simp] theorem poke_reqnum : (poke Q).reqnum = Q.reqnum := rfl
@[simp] theorem doneHttp_inflight : (doneHttp Q n).inflight = Q.inflight - 1 := rfl
@[simp] theorem doneHttp_reqnum : (doneHttp Q n).reqnum = Q.reqnum := rfl
@[simp] theorem doneHttp_reqs :
    (doneHttp Q n).reqs = (Q.modify n fun r => { r with http := false }).reqs := rfl

variable (tnow : F) (R : Request F)

@[simp] theorem sendreq_inflight : (sendreq Q R tnow).inflight = Q.inflight + 1 := rfl
@[simp] theorem sendreq_reqnum : (sendreq Q R tnow).reqnum = Q.reqnum := rfl

variable [DoubleArith F] (c : F)

@[simp] theorem bump_reqs : (Q.bump tnow).reqs = Q.reqs := rfl
@[simp] theorem bump_inflight : (Q.bump tnow).inflight = Q.inflight := rfl
@[simp] theorem bump_reqnum : (Q.bump tnow).reqnum = Q.reqnum := rfl

@[simp] theorem consume_reqs : (Q.consume c).reqs = Q.reqs := by
  unfold Queue.consume; split <;> rfl
@[simp] theorem consume_inflight : (Q.consume c).inflight = Q.inflight := by
  unfold Queue.consume; split <;> rfl
@[simp] theorem consume_reqnum : (Q.consume c).reqnum = Q.reqnum := by
  unfold Queue.consume; split <;> rfl

end Fields

/-- The request `R` is the only one `modify` changes: with distinct arrival numbers the heap is
`s ++ R :: t` around it. -/
theorem modify_split {Q : Queue F} {R : Request F} (hnd : (Q.reqs.map (·.reqnum)).Nodup)
    (hR : R ∈ Q.reqs) (f : Request F → Request F) :
    ∃ s t, Q.reqs = s ++ R :: t ∧ (Q.modify R.reqnum f).reqs = s ++ f R :: t ∧
      R.reqnum ∉ s.map (·.reqnum) ∧ R.reqnum ∉ t.map (·.reqnum) := by
  obtain ⟨s, t, hst⟩ := List.append_of_mem hR
  rw [hst, List.map_append, List.map_cons] at hnd
  have hs : R.reqnum ∉ s.map (·.reqnum) := fun h => by
    have := (List.nodup_append.mp hnd).2.2 _ h _ List.mem_cons_self
    exact this rfl
  have ht : R.reqnum ∉ t.map (·.reqnum) := (List.nodup_cons.mp (List.nodup_append.mp hnd).2.1).1
  refine ⟨s, t, hst, ?_, hs, ht⟩
  -- the other requests have other arrival numbers and keep their state
  have hkeep : ∀ l : List (Request F), R.reqnum ∉ l.map (·.reqnum) →
      l.map (fun r => if r.reqnum = R.reqnum then f r else r) = l := by
    intro l hl
    conv_rhs => rw [← List.map_id l]
    refine List.map_congr_left fun r hr => if_neg fun e => hl ?_
    rw [← e]
    exact List.mem_map_of_mem hr
  rw [modify_reqs, hst, List.map_append, List.map_cons, hkeep s hs, hkeep t ht, if_pos rfl]

theorem reqnums_modify (Q : Queue F) (n : ℕ) {f : Request F → Request F}
    (hf : ∀ r, (f r).reqnum = r.reqnum) :
    (Q.modify n f).reqs.map (·.reqnum) = Q.reqs.map (·.reqnum) := by
  rw [modify_reqs, List.map_map]
  refine List.map_congr_left fun r _ => ?_
  simp only [Function.comp_apply]
  split_ifs
  · exact hf r
  · rfl

theorem modify_modify_reqs (Q : Queue F) (n : ℕ) {f : Request F → Request F} (g : Request F → Request F)
    (hf : ∀ r, (f r).reqnum = r.reqnum) :
    ((Q.modify n f).modify n g).reqs = (Q.modify n (g ∘ f)).reqs := by
  simp only [modify_reqs, List.map_map]
  refine List.map_congr_left fun r _ => ?_
  by_cases h : r.reqnum = n <;> simp [h, hf]

/-- The requests of a consistent queue: an HTTP request in flight has its timeout pending (the
three states of the source's comment), `inflight` counts the HTTP requests in flight, and arrival
numbers are distinct. -/
structure Queue.Inv (Q : Queue F) : Prop where
  three : ∀ r ∈ Q.reqs, r.http = true → r.timeout = true
  inflight : Q.inflight = Q.reqs.countP (·.http)
  nodup : (Q.reqs.map (·.reqnum)).Nodup

section Inv

variable {Q Q' : Queue F} {R : Request F}

/-- Consistency reads the requests and `inflight` only. -/
theorem Queue.Inv.congr (hQ : Q.Inv) (hreqs : Q'.reqs = Q.reqs) (hinflight : Q'.inflight = Q.inflight) :
    Q'.Inv :=
  ⟨hreqs ▸ hQ.three, hreqs ▸ hinflight ▸ hQ.inflight, hreqs ▸ hQ.nodup⟩

/-- A change to one request keeps the queue consistent where the request keeps its arrival number,
an HTTP request in flight keeps its timeout, and `inflight` follows the request's HTTP state. -/
theorem Queue.Inv.of_modify (hQ : Q.Inv) (hR : R ∈ Q.reqs) {f : Request F → Request F}
    (hreqs : Q'.reqs = (Q.modify R.reqnum f).reqs) (hf : ∀ r, (f r).reqnum = r.reqnum)
    (hthree : (f R).http = true → (f R).timeout = true)
    (hinflight : Q'.inflight + R.http.toNat = Q.inflight + (f R).http.toNat) : Q'.Inv := by
  obtain ⟨s, t, hst, hmod, -, -⟩ := modify_split hQ.nodup hR f
  rw [hmod] at hreqs
  refine ⟨fun r hr hhttp => ?_, ?_, ?_⟩
  · rw [hreqs] at hr
    rcases List.mem_append.mp hr with hr | hr
    · exact hQ.three r (hst ▸ List.mem_append_left _ hr) hhttp
    · rcases List.mem_cons.mp hr with rfl | hr
      · exact hthree hhttp
      · exact hQ.three r (hst ▸ List.mem_append_right _ (List.mem_cons_of_mem _ hr)) hhttp
  · have hcount := hQ.inflight
    rw [hst] at hcount
    rw [hreqs]
    simp only [List.countP_append, List.countP_cons] at hcount ⊢
    cases hRh : R.http <;> cases hfh : (f R).http <;> simp_all <;> omega
  · rw [hreqs, ← hmod, reqnums_modify Q R.reqnum hf]
    exact hQ.nodup

/-- Dropping requests without an HTTP request in flight keeps the queue consistent. -/
theorem Queue.Inv.of_filter (hQ : Q.Inv) {p : Request F → Bool} (hreqs : Q'.reqs = Q.reqs.filter p)
    (hinflight : Q'.inflight = Q.inflight) (hdrop : ∀ r ∈ Q.reqs, p r = false → r.http = false) :
    Q'.Inv := by
  have hsub : Q'.reqs.Sublist Q.reqs := hreqs ▸ List.filter_sublist
  refine ⟨fun r hr => hQ.three r (hsub.subset hr), ?_, (hsub.map _).nodup hQ.nodup⟩
  rw [hinflight, hQ.inflight, hreqs, List.countP_filter]
  refine List.countP_congr fun r hr => ?_
  cases hp : p r
  · simp [hdrop r hr hp]
  · simp

/-- Sending a waiting request makes it in progress and counts it in flight. -/
theorem Queue.Inv.of_sendreq (hQ : Q.Inv) (hR : R ∈ Q.reqs) (hwait : R.timeout = false)
    (tnow : F) : (sendreq Q R tnow).Inv := by
  have hhttp : R.http = false := by
    cases h : R.http
    · rfl
    · exact absurd (hQ.three R hR h) (by simp [hwait])
  exact hQ.of_modify hR rfl (fun _ => rfl) (fun _ => rfl) (by simp [hhttp])

/-- The end of an HTTP request in flight. -/
theorem Queue.Inv.of_doneHttp (hQ : Q.Inv) (hR : R ∈ Q.reqs) (hhttp : R.http = true) :
    (doneHttp Q R.reqnum).Inv := by
  have hpos : 0 < Q.inflight := hQ.inflight ▸ List.countP_pos_iff.mpr ⟨R, hR, hhttp⟩
  refine hQ.of_modify hR rfl (fun _ => rfl) (by simp) ?_
  simp only [doneHttp_inflight, hhttp, Bool.toNat_true, Bool.toNat_false]
  omega

end Inv

/-! ## The loop of `runqueue` -/

section Sends

variable (tnow : F) {Q : Queue F} {R : Request F}

theorem sendreq_reqnums : (sendreq Q R tnow).reqs.map (·.reqnum) = Q.reqs.map (·.reqnum) :=
  reqnums_modify Q R.reqnum fun _ => rfl

/-- A request that waits after a send waited before, and is not the one sent. -/
theorem sendreq_waiting {r : Request F} (hr : r ∈ (sendreq Q R tnow).reqs) (hwait : r.timeout = false) :
    r ∈ Q.reqs ∧ r.reqnum ≠ R.reqnum := by
  obtain ⟨r₀, hr₀, rfl⟩ := List.mem_map.mp hr
  by_cases h : r₀.reqnum = R.reqnum
  · simp [h] at hwait
  · simp only [if_neg h]
    exact ⟨hr₀, h⟩

/-- A send takes one request off those waiting. -/
theorem sendreq_countP_waiting (hQ : Q.Inv) (hR : R ∈ Q.reqs) (hwait : R.timeout = false) :
    (sendreq Q R tnow).reqs.countP (!·.timeout) + 1 = Q.reqs.countP (!·.timeout) := by
  obtain ⟨s, t, hst, hmod, -, -⟩ := modify_split hQ.nodup hR
    (fun r => { r with tStart := tnow, ntries := r.ntries + 1, timeout := true, http := true })
  change (Q.modify R.reqnum _).reqs.countP _ + 1 = _
  rw [hmod, hst]
  simp [List.countP_append, hwait]
  omega

end Sends

section Loop

variable [DoubleArith F] (tnow : F)

/-- One call of the loop stops, where it is out of fuel or capacity or no request waits, or sends
the least request, which waits, and goes on. -/
theorem runqueueLoop_cases (fuel : ℕ) (Q : Queue F) :
    (runqueueLoop tnow fuel Q = (Q, []) ∧
      (fuel = 0 ∨ Q.canSend = false ∨ ∀ r ∈ Q.reqs, r.timeout = true)) ∨
    ∃ fuel' R, fuel = fuel' + 1 ∧ getmin Q.reqs = some R ∧ R.timeout = false ∧
      runqueueLoop tnow fuel Q = ((runqueueLoop tnow fuel' (sendreq Q R tnow)).1,
        R :: (runqueueLoop tnow fuel' (sendreq Q R tnow)).2) := by
  rcases fuel with _ | fuel
  · exact .inl ⟨rfl, .inl rfl⟩
  cases hsend : Q.canSend
  · exact .inl ⟨by simp [runqueueLoop, hsend], .inr (.inl rfl)⟩
  cases hmin : getmin Q.reqs with
  | none =>
    exact .inl ⟨by simp [runqueueLoop, hsend, hmin], .inr (.inr (by simp [getmin_eq_none_iff.mp hmin]))⟩
  | some R =>
    cases hR : R.timeout
    · exact .inr ⟨fuel, R, rfl, rfl, hR, by simp [runqueueLoop, hsend, hmin, hR]⟩
    · exact .inl ⟨by simp [runqueueLoop, hsend, hmin, hR], .inr (.inr (getmin_timeout hmin hR))⟩

variable {Q : Queue F} {R : Request F}

/-- The loop keeps the queue consistent and its requests' arrival numbers. -/
theorem runqueueLoop_inv : ∀ fuel Q, Q.Inv →
    (runqueueLoop tnow fuel Q).1.Inv ∧
      (runqueueLoop tnow fuel Q).1.reqs.map (·.reqnum) = Q.reqs.map (·.reqnum) ∧
      (runqueueLoop tnow fuel Q).1.reqnum = Q.reqnum := by
  intro fuel Q hQ
  induction fuel generalizing Q with
  | zero => exact ⟨hQ, rfl, rfl⟩
  | succ fuel ih =>
    rcases runqueueLoop_cases tnow (fuel + 1) Q with ⟨h, -⟩ | ⟨fuel', R, hf, hmin, hwait, h⟩
    · rw [h]
      exact ⟨hQ, rfl, rfl⟩
    · obtain rfl : fuel = fuel' := by omega
      obtain ⟨h₁, h₂, h₃⟩ := ih (sendreq Q R tnow) (hQ.of_sendreq (getmin_spec hmin).1 hwait tnow)
      rw [h]
      exact ⟨h₁, h₂.trans (sendreq_reqnums tnow), h₃⟩

/-- The loop sends waiting requests only, each before the next, and leaves waiting only requests
it found waiting, each after all those it sent. -/
theorem runqueueLoop_order : ∀ fuel Q, Q.Inv →
    (∀ R ∈ (runqueueLoop tnow fuel Q).2, R ∈ Q.reqs ∧ R.timeout = false) ∧
    (runqueueLoop tnow fuel Q).2.Pairwise Request.Before ∧
    ∀ r ∈ (runqueueLoop tnow fuel Q).1.reqs, r.timeout = false →
      r ∈ Q.reqs ∧ ∀ R ∈ (runqueueLoop tnow fuel Q).2, R.Before r := by
  intro fuel Q hQ
  induction fuel generalizing Q with
  | zero => exact ⟨by simp [runqueueLoop], by simp [runqueueLoop], fun r hr _ => ⟨hr, by simp [runqueueLoop]⟩⟩
  | succ fuel ih =>
    rcases runqueueLoop_cases tnow (fuel + 1) Q with ⟨h, -⟩ | ⟨fuel', R, hf, hmin, hwait, h⟩
    · rw [h]
      exact ⟨by simp, by simp, fun r hr _ => ⟨hr, by simp⟩⟩
    obtain rfl : fuel = fuel' := by omega
    have hR := (getmin_spec hmin).1
    obtain ⟨hsent, hpair, hleft⟩ := ih (sendreq Q R tnow) (hQ.of_sendreq hR hwait tnow)
    -- `R` was the least waiting request, and those sent later waited, other than `R`
    have hfirst : ∀ S, S ∈ (sendreq Q R tnow).reqs → S.timeout = false → R.Before S := by
      intro S hS hSwait
      obtain ⟨hS, hne⟩ := sendreq_waiting tnow hS hSwait
      exact getmin_before hmin hwait S hS hSwait hne
    rw [h]
    refine ⟨?_, ?_, ?_⟩
    · intro S hS
      rcases List.mem_cons.mp hS with rfl | hS
      · exact ⟨hR, hwait⟩
      · obtain ⟨hS₁, hSwait⟩ := hsent S hS
        exact ⟨(sendreq_waiting tnow hS₁ hSwait).1, hSwait⟩
    · exact List.pairwise_cons.mpr ⟨fun S hS => hfirst S (hsent S hS).1 (hsent S hS).2, hpair⟩
    · intro r hr hrwait
      obtain ⟨hr₁, hbefore⟩ := hleft r hr hrwait
      refine ⟨(sendreq_waiting tnow hr₁ hrwait).1, fun S hS => ?_⟩
      rcases List.mem_cons.mp hS with rfl | hS
      · exact hfirst r hr₁ hrwait
      · exact hbefore S hS

/-- With fuel for every waiting request, the loop stops only where the source's loop does: out of
capacity, or with no request waiting. -/
theorem runqueueLoop_stops : ∀ fuel Q, Q.Inv → Q.reqs.countP (!·.timeout) ≤ fuel →
    (runqueueLoop tnow fuel Q).1.canSend = false ∨
      ∀ r ∈ (runqueueLoop tnow fuel Q).1.reqs, r.timeout = true := by
  intro fuel Q hQ hfuel
  induction fuel generalizing Q with
  | zero =>
    right
    intro r hr
    have := List.countP_eq_zero.mp (Nat.le_zero.mp hfuel) r hr
    simpa using this
  | succ fuel ih =>
    rcases runqueueLoop_cases tnow (fuel + 1) Q with ⟨h, hstop⟩ | ⟨fuel', R, hf, hmin, hwait, h⟩
    · rw [h]
      rcases hstop with h0 | hstop
      · omega
      · exact hstop
    · obtain rfl : fuel = fuel' := by omega
      have hR := (getmin_spec hmin).1
      have hcount := sendreq_countP_waiting tnow hQ hR hwait
      rw [h]
      exact ih _ (hQ.of_sendreq hR hwait tnow) (by omega)

end Loop

/-! ## What each event does -/

section Events

variable {Q : Queue F} {R : Request F}

/-- A timeout that fires cancels the HTTP request in flight, if any, and the request waits. -/
theorem Queue.Inv.of_callbackTimeout (hQ : Q.Inv) (hR : R ∈ Q.reqs) :
    (callbackTimeout Q R).Inv ∧ (callbackTimeout Q R).reqs.map (·.reqnum) = Q.reqs.map (·.reqnum) ∧
      (callbackTimeout Q R).reqnum = Q.reqnum := by
  cases hh : R.http
  · -- only the timeout was pending
    have hreqs : (callbackTimeout Q R).reqs = (Q.modify R.reqnum fun r => { r with timeout := false }).reqs := by
      simp [callbackTimeout, hh]
    refine ⟨hQ.of_modify hR hreqs (fun _ => rfl) (by simp [hh]) (by simp [callbackTimeout, hh]), ?_,
      by simp [callbackTimeout, hh]⟩
    rw [hreqs]
    exact reqnums_modify Q R.reqnum fun _ => rfl
  · -- the HTTP request in flight is cancelled too
    have hpos : 0 < Q.inflight := hQ.inflight ▸ List.countP_pos_iff.mpr ⟨R, hR, hh⟩
    have hreqs : (callbackTimeout Q R).reqs =
        (Q.modify R.reqnum ((fun r => { r with http := false }) ∘ fun r => { r with timeout := false })).reqs := by
      simp only [callbackTimeout, hh, if_true, poke_reqs, doneHttp_reqs]
      exact modify_modify_reqs Q R.reqnum _ fun _ => rfl
    refine ⟨hQ.of_modify hR hreqs (fun _ => rfl) (by simp) ?_, ?_, by simp [callbackTimeout, hh]⟩
    · simp only [callbackTimeout, hh, if_true, poke_inflight, doneHttp_inflight, modify_inflight]
      simp
      omega
    · rw [hreqs]
      exact reqnums_modify Q R.reqnum fun _ => rfl

/-- A flush cancels every request in flight. -/
theorem foldl_inflight (l : List (Request F)) (m : ℕ) :
    l.foldl (fun n r => if r.http then n - 1 else n) m = m - l.countP (·.http) := by
  induction l generalizing m with
  | nil => rfl
  | cons r l ih =>
    rw [List.foldl_cons, ih, List.countP_cons]
    cases r.http <;> simp
    omega

theorem Queue.Inv.flush_inflight (hQ : Q.Inv) : (dynamodbRequestQueueFlush Q).inflight = 0 := by
  simp [dynamodbRequestQueueFlush, foldl_inflight, hQ.inflight]

variable [DoubleArith F]

/-- `runqueue` is its loop on the filled bucket, with the capacity timer maybe started. -/
theorem runqueue_eq (Q : Queue F) (tnow : F) :
    (runqueue Q tnow).2 = (runqueueLoop tnow Q.reqs.length (Q.bump tnow)).2 ∧
      ∃ b, (runqueue Q tnow).1 = { (runqueueLoop tnow Q.reqs.length (Q.bump tnow)).1 with timerPending := b } := by
  unfold runqueue
  dsimp only
  split
  · exact ⟨rfl, true, rfl⟩
  · exact ⟨rfl, _, rfl⟩

theorem Queue.Inv.of_runqueue (hQ : Q.Inv) (tnow : F) :
    (runqueue Q tnow).1.Inv ∧ (runqueue Q tnow).1.reqs.map (·.reqnum) = Q.reqs.map (·.reqnum) ∧
      (runqueue Q tnow).1.reqnum = Q.reqnum := by
  obtain ⟨-, b, hb⟩ := runqueue_eq Q tnow
  obtain ⟨h₁, h₂, h₃⟩ := runqueueLoop_inv tnow Q.reqs.length (Q.bump tnow) (hQ.congr rfl rfl)
  rw [hb]
  exact ⟨h₁.congr rfl rfl, h₂, h₃⟩

/-- A response ends the HTTP request of `R`; then `R` stays to be retried, or leaves the heap and
is answered. -/
theorem callbackReqdone_cases (Q : Queue F) (R : Request F) (res : Option (Response F)) (tEnd : F) :
    ((callbackReqdone Q R res tEnd).2 = none ∧
      (callbackReqdone Q R res tEnd).1.reqs = (doneHttp Q R.reqnum).reqs) ∨
    ∃ r, (callbackReqdone Q R res tEnd).2 = some (R, r) ∧
      (callbackReqdone Q R res tEnd).1.reqs = (doneHttp Q R.reqnum).reqs.filter (·.reqnum ≠ R.reqnum) := by
  unfold callbackReqdone
  split_ifs
  · exact .inl ⟨rfl, by simp⟩
  · rcases res with _ | r
    · exact .inl ⟨rfl, by simp⟩
    · dsimp only
      split_ifs
      · exact .inr ⟨r, rfl, by simp [Queue.finish]⟩
      · exact .inl ⟨rfl, by simp⟩

theorem callbackReqdone_inflight (Q : Queue F) (R : Request F) (res : Option (Response F)) (tEnd : F) :
    (callbackReqdone Q R res tEnd).1.inflight = Q.inflight - 1 := by
  unfold callbackReqdone
  split_ifs
  · simp
  · rcases res with _ | r
    · simp
    · dsimp only
      split_ifs <;> simp [Queue.finish]

theorem callbackReqdone_reqnum (Q : Queue F) (R : Request F) (res : Option (Response F)) (tEnd : F) :
    (callbackReqdone Q R res tEnd).1.reqnum = Q.reqnum := by
  unfold callbackReqdone
  split_ifs
  · simp
  · rcases res with _ | r
    · simp
    · dsimp only
      split_ifs <;> simp [Queue.finish]

theorem Queue.Inv.of_callbackReqdone (hQ : Q.Inv) (hR : R ∈ Q.reqs) (hhttp : R.http = true)
    (res : Option (Response F)) (tEnd : F) : (callbackReqdone Q R res tEnd).1.Inv := by
  have hdone := hQ.of_doneHttp hR hhttp
  rcases callbackReqdone_cases Q R res tEnd with ⟨-, hreqs⟩ | ⟨r, -, hreqs⟩
  · exact hdone.congr hreqs (callbackReqdone_inflight Q R res tEnd)
  · -- the requests that leave have no HTTP request in flight any more
    refine hdone.of_filter hreqs (callbackReqdone_inflight Q R res tEnd) fun x hx hp => ?_
    obtain ⟨x₀, -, rfl⟩ := List.mem_map.mp hx
    by_cases h : x₀.reqnum = R.reqnum
    · simp [h]
    · simp [h] at hp

/-- A new request joins with the next arrival number, waiting. -/
theorem Queue.Inv.of_queue (hQ : Q.Inv) (hbelow : ∀ r ∈ Q.reqs, r.reqnum < Q.reqnum) (prio : ℤ) :
    (dynamodbRequestQueue Q prio).1.Inv := by
  refine ⟨fun r hr hhttp => ?_, ?_, ?_⟩
  · simp only [dynamodbRequestQueue, poke_reqs, List.mem_append, List.mem_singleton] at hr
    rcases hr with hr | rfl
    · exact hQ.three r hr hhttp
    · cases hhttp
  · simp [dynamodbRequestQueue, List.countP_append, hQ.inflight]
  · simp only [dynamodbRequestQueue, poke_reqs, List.map_append, List.map_singleton]
    refine List.nodup_append.mpr ⟨hQ.nodup, List.nodup_singleton _, ?_⟩
    intro a ha b hb
    obtain ⟨r, hr, rfl⟩ := List.mem_map.mp ha
    rw [List.mem_singleton.mp hb]
    exact (hbelow r hr).ne

end Events

/-! ## The queue as a system -/

/-- The queue with ghost records: the requests answered, with the responses passed to their
callbacks, the requests flushes dropped, and every request `runqueue` sent, as it was before. -/
structure QueueWorld (F : Type) where
  Q : Queue F
  answered : List (Request F × Response F)
  dropped : List (Request F)
  sent : List (Request F)

/-- The arrival numbers of the requests queued, answered and dropped. -/
def QueueWorld.accounted (W : QueueWorld F) : List ℕ :=
  W.Q.reqs.map (·.reqnum) ++ W.answered.map (·.1.reqnum) ++ W.dropped.map (·.reqnum)

/-- The queue is consistent, and each arrival number given out is exactly once queued, answered
or dropped. -/
structure QueueWorld.Inv (W : QueueWorld F) : Prop where
  queue : W.Q.Inv
  accounted : W.accounted.Perm (List.range W.Q.reqnum)

section World

variable {W : QueueWorld F}

theorem QueueWorld.Inv.below (hW : W.Inv) : ∀ r ∈ W.Q.reqs, r.reqnum < W.Q.reqnum := by
  intro r hr
  have hmem : r.reqnum ∈ W.accounted := by
    simp only [QueueWorld.accounted, List.mem_append]
    exact .inl (.inl (List.mem_map_of_mem hr))
  exact List.mem_range.mp (hW.accounted.subset hmem)

/-- An event that keeps the arrival numbers queued, the records and the next number keeps the
account. -/
theorem QueueWorld.Inv.of_reqnums {W' : QueueWorld F} (hW : W.Inv) (hQ : W'.Q.Inv)
    (hreqs : W'.Q.reqs.map (·.reqnum) = W.Q.reqs.map (·.reqnum)) (hans : W'.answered = W.answered)
    (hdrop : W'.dropped = W.dropped) (hnum : W'.Q.reqnum = W.Q.reqnum) : W'.Inv := by
  refine ⟨hQ, ?_⟩
  rw [QueueWorld.accounted, hreqs, hans, hdrop, hnum]
  exact hW.accounted

/-- The arrival numbers of the requests a filter on arrival numbers keeps. -/
theorem reqnums_filter (l : List (Request F)) (n : ℕ) :
    (l.filter (·.reqnum ≠ n)).map (·.reqnum) = (l.map (·.reqnum)).filter (· != n) := by
  rw [List.filter_map]
  congr 1
  exact List.filter_congr fun r _ => by by_cases h : r.reqnum = n <;> simp [h]

theorem flush_inv (hW : W.Inv) :
    ({ W with Q := dynamodbRequestQueueFlush W.Q, dropped := W.dropped ++ W.Q.reqs } : QueueWorld F).Inv := by
  refine ⟨⟨by simp [dynamodbRequestQueueFlush], hW.queue.flush_inflight,
    by simp [dynamodbRequestQueueFlush]⟩, ?_⟩
  have h := hW.accounted
  simp only [QueueWorld.accounted, dynamodbRequestQueueFlush, List.map_nil, List.nil_append,
    List.map_append] at h ⊢
  refine List.perm_iff_count.mpr fun x => ?_
  have := List.perm_iff_count.mp h x
  simp only [List.count_append] at this ⊢
  omega

variable [DoubleArith F]

/-- The events of the queue, in any order: a request queued, the immediate callback or the
capacity timer running the queue, the timeout of a request with one pending, the response to a
request with an HTTP request in flight, a new capacity, and a flush. -/
inductive QueueStep : QueueWorld F → QueueWorld F → Prop
  | queue {W : QueueWorld F} (prio : ℤ) :
      QueueStep W { W with Q := (dynamodbRequestQueue W.Q prio).1 }
  | immediate {W : QueueWorld F} (tnow : F) : W.Q.immediatePending = true →
      QueueStep W { W with Q := (pokeImmediate W.Q tnow).1, sent := W.sent ++ (pokeImmediate W.Q tnow).2 }
  | timer {W : QueueWorld F} (tnow : F) : W.Q.timerPending = true →
      QueueStep W { W with Q := (pokeTimer W.Q tnow).1, sent := W.sent ++ (pokeTimer W.Q tnow).2 }
  | timeout {W : QueueWorld F} {R : Request F} : R ∈ W.Q.reqs → R.timeout = true →
      QueueStep W { W with Q := callbackTimeout W.Q R }
  | reqdone {W : QueueWorld F} {R : Request F} (res : Option (Response F)) (tEnd : F) :
      R ∈ W.Q.reqs → R.http = true →
      QueueStep W { W with Q := (callbackReqdone W.Q R res tEnd).1, answered := W.answered ++ (callbackReqdone W.Q R res tEnd).2.toList }
  | setcapacity {W : QueueWorld F} (capacity : ℤ) :
      QueueStep W { W with Q := dynamodbRequestQueueSetcapacity W.Q capacity }
  | flush {W : QueueWorld F} :
      QueueStep W { W with Q := dynamodbRequestQueueFlush W.Q, dropped := W.dropped ++ W.Q.reqs }

/-- A queue just created. -/
def queueInit (W : QueueWorld F) : Prop := ∃ tnow, W = ⟨dynamodbRequestQueueInit tnow, [], [], []⟩

theorem queueInit_inv (h : queueInit W) : W.Inv := by
  obtain ⟨tnow, rfl⟩ := h
  exact ⟨⟨by simp [dynamodbRequestQueueInit, dynamodbRequestQueueSetcapacity],
    by simp [dynamodbRequestQueueInit, dynamodbRequestQueueSetcapacity],
    by simp [dynamodbRequestQueueInit, dynamodbRequestQueueSetcapacity]⟩,
    by simp [QueueWorld.accounted, dynamodbRequestQueueInit, dynamodbRequestQueueSetcapacity]⟩

theorem queue_inv (hW : W.Inv) (prio : ℤ) :
    ({ W with Q := (dynamodbRequestQueue W.Q prio).1 } : QueueWorld F).Inv := by
  refine ⟨hW.queue.of_queue hW.below prio, ?_⟩
  -- the new arrival number is the next one
  have h := hW.accounted
  simp only [QueueWorld.accounted, dynamodbRequestQueue, poke_reqs, poke_reqnum, List.map_append,
    List.map_singleton, List.range_succ] at h ⊢
  refine List.perm_iff_count.mpr fun x => ?_
  have := List.perm_iff_count.mp h x
  simp only [List.count_append, List.count_singleton] at this ⊢
  omega

theorem runqueue_world_inv (hW : W.Inv) {Q : Queue F} (hQ : Q.reqs = W.Q.reqs)
    (hinfl : Q.inflight = W.Q.inflight) (hnum : Q.reqnum = W.Q.reqnum) (tnow : F)
    (sent : List (Request F)) :
    ({ W with Q := (runqueue Q tnow).1, sent := sent } : QueueWorld F).Inv := by
  obtain ⟨h₁, h₂, h₃⟩ := (hW.queue.congr hQ hinfl).of_runqueue tnow
  exact hW.of_reqnums h₁ (h₂.trans (by rw [hQ])) rfl rfl (h₃.trans hnum)

theorem reqdone_inv (hW : W.Inv) {R : Request F} (hR : R ∈ W.Q.reqs) (hhttp : R.http = true)
    (res : Option (Response F)) (tEnd : F) :
    ({ W with Q := (callbackReqdone W.Q R res tEnd).1, answered := W.answered ++ (callbackReqdone W.Q R res tEnd).2.toList } : QueueWorld F).Inv := by
  have hQ := hW.queue.of_callbackReqdone hR hhttp res tEnd
  have hdone : (doneHttp W.Q R.reqnum).reqs.map (·.reqnum) = W.Q.reqs.map (·.reqnum) := by
    rw [doneHttp_reqs]
    exact reqnums_modify W.Q R.reqnum fun _ => rfl
  rcases callbackReqdone_cases W.Q R res tEnd with ⟨hnone, hreqs⟩ | ⟨r, hsome, hreqs⟩
  · -- retried: nothing answered
    refine hW.of_reqnums hQ (by rw [hreqs, hdone]) (by simp [hnone]) rfl
      (callbackReqdone_reqnum W.Q R res tEnd)
  · -- answered: the arrival number moves from the heap to the answers
    refine ⟨hQ, ?_⟩
    have h := hW.accounted
    have hnd := hW.queue.nodup
    have hmem : R.reqnum ∈ W.Q.reqs.map (·.reqnum) := List.mem_map_of_mem hR
    have hleft : ((doneHttp W.Q R.reqnum).reqs.filter (·.reqnum ≠ R.reqnum)).map (·.reqnum) =
        (W.Q.reqs.map (·.reqnum)).erase R.reqnum := by
      rw [reqnums_filter, hdone, List.Nodup.erase_eq_filter hnd]
    simp only [QueueWorld.accounted, hreqs, hsome, callbackReqdone_reqnum, Option.toList_some,
      List.map_append, List.map_singleton, hleft] at h ⊢
    refine List.perm_iff_count.mpr fun x => ?_
    have := List.perm_iff_count.mp h x
    simp only [List.count_append, List.count_singleton, List.count_erase] at this ⊢
    by_cases hx : x = R.reqnum
    · subst hx
      have hpos := List.count_pos_iff.mpr hmem
      simp only [beq_self_eq_true, if_true] at this ⊢
      omega
    · have hne : (R.reqnum == x) = false := by simpa using Ne.symm hx
      simp only [hne, Bool.false_eq_true, if_false] at this ⊢
      omega

/-- Every event keeps the invariant. -/
theorem QueueStep.inv {W W' : QueueWorld F} (hW : W.Inv) (h : QueueStep W W') : W'.Inv := by
  cases h with
  | queue prio => exact queue_inv hW prio
  | immediate tnow _ =>
    exact runqueue_world_inv (Q := { W.Q with immediatePending := false }) hW rfl rfl rfl tnow _
  | timer tnow _ => exact runqueue_world_inv (Q := { W.Q with timerPending := false }) hW rfl rfl rfl tnow _
  | timeout hR _ =>
    obtain ⟨h₁, h₂, h₃⟩ := hW.queue.of_callbackTimeout hR
    exact hW.of_reqnums h₁ h₂ rfl rfl h₃
  | reqdone res tEnd hR hhttp => exact reqdone_inv hW hR hhttp res tEnd
  | setcapacity capacity => exact hW.of_reqnums (hW.queue.congr rfl rfl) rfl rfl rfl rfl
  | flush => exact flush_inv hW

theorem reachable_queueInv (h : Reachable queueInit QueueStep W) : W.Inv :=
  h.invariant (fun _ h₀ => queueInit_inv h₀) (fun _ _ hI hs => QueueStep.inv hI hs)

end World

/-! ## A run of the queue

Four requests of priorities 2, 1, 1 and 3, the doubles taken exact: all four are sent by
priority and arrival, the first of priority 1 is answered, the second fails with status 503, times
out and is sent again, and a flush drops the three left. -/

/-- The four requests queued at time 0. -/
def queuedWorld : QueueWorld ℚ :=
  [2, 1, 1, 3].foldl (fun W prio => { W with Q := (dynamodbRequestQueue W.Q prio).1 })
    ⟨dynamodbRequestQueueInit 0, [], [], []⟩

/-- The immediate callback at time 1 sends all four. -/
def sentWorld : QueueWorld ℚ :=
  { queuedWorld with Q := (pokeImmediate queuedWorld.Q 1).1, sent := queuedWorld.sent ++ (pokeImmediate queuedWorld.Q 1).2 }

/-- A request as `sendreq` leaves it at time 1: one attempt, an HTTP request and a timeout
pending. -/
def sentRequest (prio : ℤ) (n : ℕ) : Request ℚ := ⟨prio, n, 1, 1, true, true⟩

/-- Request 1 is answered at time 2 with status 200. -/
def answeredWorld : QueueWorld ℚ :=
  { sentWorld with
    Q := (callbackReqdone sentWorld.Q (sentRequest 1 1) (some ⟨200, 2, 1, ""⟩) 2).1
    answered := sentWorld.answered ++ (callbackReqdone sentWorld.Q (sentRequest 1 1) (some ⟨200, 2, 1, ""⟩) 2).2.toList }

/-- Request 2 fails at time 2 with status 503, to be retried after its timeout. -/
def failedWorld : QueueWorld ℚ :=
  { answeredWorld with
    Q := (callbackReqdone answeredWorld.Q (sentRequest 1 2) (some ⟨503, 0, 0, ""⟩) 2).1
    answered := answeredWorld.answered ++ (callbackReqdone answeredWorld.Q (sentRequest 1 2) (some ⟨503, 0, 0, ""⟩) 2).2.toList }

/-- The timeout of request 2 fires: it waits to be sent again. -/
def waitingWorld : QueueWorld ℚ :=
  { failedWorld with Q := callbackTimeout failedWorld.Q { sentRequest 1 2 with http := false } }

/-- The immediate callback at time 3 sends request 2 again, and a flush drops the requests left. -/
def flushedWorld : QueueWorld ℚ :=
  let W : QueueWorld ℚ :=
    { waitingWorld with Q := (pokeImmediate waitingWorld.Q 3).1, sent := waitingWorld.sent ++ (pokeImmediate waitingWorld.Q 3).2 }
  { W with Q := dynamodbRequestQueueFlush W.Q, dropped := W.dropped ++ W.Q.reqs }

theorem reachable_queuedWorld : Reachable queueInit QueueStep queuedWorld :=
  have h₀ : Reachable queueInit QueueStep (⟨dynamodbRequestQueueInit 0, [], [], []⟩ : QueueWorld ℚ) :=
    .init ⟨0, rfl⟩
  (((h₀.tail (.queue 2)).tail (.queue 1)).tail (.queue 1)).tail (.queue 3)

theorem reachable_waitingWorld : Reachable queueInit QueueStep waitingWorld :=
  have h₁ : Reachable queueInit QueueStep sentWorld := reachable_queuedWorld.tail (.immediate 1 rfl)
  have h₂ : Reachable queueInit QueueStep answeredWorld :=
    h₁.tail (.reqdone _ 2 (by with_unfolding_all decide) rfl)
  have h₃ : Reachable queueInit QueueStep failedWorld :=
    h₂.tail (.reqdone _ 2 (by with_unfolding_all decide) rfl)
  h₃.tail (.timeout (by with_unfolding_all decide) rfl)

theorem reachable_flushedWorld : Reachable queueInit QueueStep flushedWorld :=
  (reachable_waitingWorld.tail (.immediate 3 rfl)).tail .flush

/-! ## What the queue guarantees -/

variable [DoubleArith F]

/-- In every reachable state `inflight` counts the requests with an HTTP request in flight, each of
which has its timeout pending, and every request ever queued is exactly one of: still queued,
answered once through its callback, or dropped by a flush. -/
theorem reachable_requests {W : QueueWorld F} (hW : Reachable queueInit QueueStep W) :
    W.Q.inflight = W.Q.reqs.countP (·.http) ∧ (∀ r ∈ W.Q.reqs, r.http = true → r.timeout = true) ∧
      (W.Q.reqs.map (·.reqnum) ++ W.answered.map (·.1.reqnum) ++ W.dropped.map (·.reqnum)).Perm
        (List.range W.Q.reqnum) := by
  have hI := reachable_queueInv hW
  exact ⟨hI.queue.inflight, hI.queue.three, hI.accounted⟩

/-- After the run, five requests were sent, request 1 was answered and the other three dropped,
each once. -/
theorem flushedWorld_requests :
    (flushedWorld.sent.map (·.reqnum) = [1, 2, 0, 3, 2] ∧
        flushedWorld.answered.map (·.1.reqnum) = [1] ∧ flushedWorld.dropped.map (·.reqnum) = [0, 2, 3]) ∧
      flushedWorld.Q.inflight = flushedWorld.Q.reqs.countP (·.http) ∧
      (∀ r ∈ flushedWorld.Q.reqs, r.http = true → r.timeout = true) ∧
      (flushedWorld.Q.reqs.map (·.reqnum) ++ flushedWorld.answered.map (·.1.reqnum) ++
        flushedWorld.dropped.map (·.reqnum)).Perm (List.range flushedWorld.Q.reqnum) :=
  ⟨by with_unfolding_all decide, reachable_requests reachable_flushedWorld⟩

/-- Every `runqueue` on a reachable queue sends waiting requests only, in order of priority and
arrival; each request it leaves waiting comes after all those it sent; and it stops only out of
capacity or with no request waiting. -/
theorem reachable_runqueue_order {W : QueueWorld F} (hW : Reachable queueInit QueueStep W)
    (tnow : F) :
    (∀ R ∈ (runqueue W.Q tnow).2, R ∈ W.Q.reqs ∧ R.timeout = false) ∧
    (runqueue W.Q tnow).2.Pairwise Request.Before ∧
    (∀ r ∈ (runqueue W.Q tnow).1.reqs, r.timeout = false → ∀ R ∈ (runqueue W.Q tnow).2, R.Before r) ∧
    ((runqueue W.Q tnow).1.canSend = false ∨ ∀ r ∈ (runqueue W.Q tnow).1.reqs, r.timeout = true) := by
  have hQ : (W.Q.bump tnow).Inv := (reachable_queueInv hW).queue.congr rfl rfl
  obtain ⟨hsent, b, hb⟩ := runqueue_eq W.Q tnow
  obtain ⟨h₁, h₂, h₃⟩ := runqueueLoop_order tnow W.Q.reqs.length (W.Q.bump tnow) hQ
  have hstop := runqueueLoop_stops tnow W.Q.reqs.length (W.Q.bump tnow) hQ List.countP_le_length
  rw [hsent, hb]
  exact ⟨h₁, h₂, fun r hr hwait => (h₃ r hr hwait).2, hstop⟩

/-- On the four queued requests `runqueue` sends request 1, 2, 0 and 3 in turn; once request 2
waits again among requests in progress, it sends request 2 alone. -/
theorem queuedWorld_runqueue_order :
    ((runqueue queuedWorld.Q 1).2.map (·.reqnum) = [1, 2, 0, 3] ∧
        (runqueue waitingWorld.Q 3).2.map (·.reqnum) = [2]) ∧
      ((∀ R ∈ (runqueue queuedWorld.Q 1).2, R ∈ queuedWorld.Q.reqs ∧ R.timeout = false) ∧
        (runqueue queuedWorld.Q 1).2.Pairwise Request.Before ∧
        (∀ r ∈ (runqueue queuedWorld.Q 1).1.reqs, r.timeout = false →
          ∀ R ∈ (runqueue queuedWorld.Q 1).2, R.Before r) ∧
        ((runqueue queuedWorld.Q 1).1.canSend = false ∨
          ∀ r ∈ (runqueue queuedWorld.Q 1).1.reqs, r.timeout = true)) ∧
      ((∀ R ∈ (runqueue waitingWorld.Q 3).2, R ∈ waitingWorld.Q.reqs ∧ R.timeout = false) ∧
        (runqueue waitingWorld.Q 3).2.Pairwise Request.Before ∧
        (∀ r ∈ (runqueue waitingWorld.Q 3).1.reqs, r.timeout = false →
          ∀ R ∈ (runqueue waitingWorld.Q 3).2, R.Before r) ∧
        ((runqueue waitingWorld.Q 3).1.canSend = false ∨
          ∀ r ∈ (runqueue waitingWorld.Q 3).1.reqs, r.timeout = true)) :=
  ⟨by with_unfolding_all decide, reachable_runqueue_order reachable_queuedWorld 1,
    reachable_runqueue_order reachable_waitingWorld 3⟩

end Kivaloo.Dynamodb
