import Kivaloo.Lib.Transition
import Kivaloo.Lib.ListRel

/-!
# The mux dispatcher (mux/dispatch.c)

The mux accepts client connections and forwards each request packet they send to one upstream
request queue.  It remembers the connection and the client's request ID in a cookie (`struct
forwardee`) and sends the response back with that ID.  A connection counts the responses it is
owed (`nrequests`).  It is dropped when it owes none and no longer reads requests, which
happens when reading fails, or when the upstream fails and the mux stops reading from every
connection.

The upstream is the wire request queue, whose guarantee is that each request's callback runs
exactly once, with the response or with `NULL` (`Kivaloo.Wire.reachable_exactlyOnce`).  The
model takes that guarantee as its upstream: any pending cookie may have its callback run, in
any order, once, with a payload or with `NULL`.  Connections are named by their number in the
order they were accepted, standing for their addresses.  A function returns `none` where the C
code would fail an assertion, use a freed connection, or try to accept while an accept is
pending.  `reachable_routing` shows that in every reachable state none of these can happen.

Accepting does not stay off once the upstream has failed: `reachable_acceptAfterFailure` reaches,
under every connection limit, a state that has failed and accepts new connections.
-/

namespace Kivaloo.Mux

open Kivaloo.Lib

/-- `struct sock_active`, named by the number `conn` of its connection: whether a wait for
request packets is registered (`read_cookie != NULL`), and the number of responses owed. -/
structure SockActive where
  conn : ℕ
  reading : Bool
  nrequests : ℕ
  deriving DecidableEq

/-- `struct dispatch_state`: the active connections, newest first, their number, the most
allowed at once, whether the listening sockets are accepting (their `accept_cookie`s), and
whether the connection to the target failed. -/
structure DispatchState where
  sockActive : List SockActive
  nsockActive : ℕ
  nsockActiveMax : ℕ
  accepting : Bool
  failed : Bool

/-- `struct forwardee`: the connection a request came from and the client's request ID. -/
structure Forwardee where
  conn : ℕ
  ID : ℕ
  deriving DecidableEq

namespace DispatchState

/-- The connection `c` while it is active: what dereferencing its pointer reads. -/
def find (D : DispatchState) (c : ℕ) : Option SockActive := D.sockActive.find? (·.conn = c)

/-- `f` done to the connection `c`. -/
def update (D : DispatchState) (c : ℕ) (f : SockActive → SockActive) : DispatchState :=
  { D with sockActive := D.sockActive.map fun S => if S.conn = c then f S else S }

/-- The numbers of the active connections. -/
def conns (D : DispatchState) : List ℕ := D.sockActive.map (·.conn)

end DispatchState

open DispatchState

/-- `accept_stop(dstate)`: cancel the pending accepts. -/
def acceptStop (D : DispatchState) : DispatchState := { D with accepting := false }

/-- `accept_start(dstate)`: accept on every listening socket; `none` where an accept is already
pending ("Already trying to accept a connection!"). -/
def acceptStart (D : DispatchState) : Option DispatchState :=
  if D.accepting then none else some { D with accepting := true }

/-- `dispatch_init(socks, nsocks, Q, maxconn)`: no connections, accepting. -/
def dispatchInit (maxconn : ℕ) : Option DispatchState := acceptStart ⟨[], 0, maxconn, false, false⟩

/-- `dropconn(S)`: the connection is detached and freed; accepting resumes if the limit was
reached.  `none` where `S` was already freed or a sanity check fails. -/
def dropconn (D : DispatchState) (c : ℕ) : Option DispatchState :=
  match D.find c with
  | none => none
  | some S =>
    if S.reading = true ∨ S.nrequests ≠ 0 then none
    else
      let D' := { D with
        sockActive := D.sockActive.filter (·.conn ≠ c)
        nsockActive := D.nsockActive - 1 }
      -- `dstate->nsock_active-- == dstate->nsock_active_max` compares the count before
      if D.nsockActive = D.nsockActiveMax then acceptStart D' else some D'

/-- Stop reading requests from the connection `c`, and drop it if it owes no responses: what
`readreq_cancel` and the failure path of `callback_gotrequests` both do. -/
def stopReading (D : DispatchState) (c : ℕ) : Option DispatchState :=
  match D.find c with
  | none => none
  | some S =>
    let D := D.update c fun S => { S with reading := false }
    if S.nrequests = 0 then dropconn D c else some D

/-- `readreq_cancel(S)`: cancel the wait for requests. -/
def readreqCancel (D : DispatchState) (c : ℕ) : Option DispatchState := stopReading D c

/-- The failure path of `callback_gotrequests(S, status)`: the wait or a read failed. -/
def callbackGotrequestsFail (D : DispatchState) (c : ℕ) : Option DispatchState := stopReading D c

/-- `reqdone(S)`: one response fewer is owed; a connection that owes none and reads no more is
dropped.  `none` where nothing was owed, so that `S->nrequests--` would wrap. -/
def reqdone (D : DispatchState) (c : ℕ) : Option DispatchState :=
  match D.find c with
  | none => none
  | some S =>
    if S.nrequests = 0 then none
    else
      let D := D.update c fun S => { S with nrequests := S.nrequests - 1 }
      if S.nrequests - 1 = 0 ∧ S.reading = false then dropconn D c else some D

/-- `callback_gotconn(L, s)` for the connection numbered `c`: accepting stops, the connection
is added, waiting for requests, and accepting starts again below the limit. -/
def callbackGotconn (D : DispatchState) (c : ℕ) : Option DispatchState :=
  let D := acceptStop D
  let D := { D with sockActive := ⟨c, true, 0⟩ :: D.sockActive, nsockActive := D.nsockActive + 1 }
  if D.nsockActive < D.nsockActiveMax then acceptStart D else some D

/-- One packet of the loop of `callback_gotrequests(S, status)` on the connection `c`: the
request with the ID `ID` is forwarded with a new cookie, and one more response is owed. -/
def callbackGotrequest (D : DispatchState) (c ID : ℕ) : Option (DispatchState × Forwardee) :=
  match D.find c with
  | none => none
  | some _ => some (D.update c fun S => { S with nrequests := S.nrequests + 1 }, ⟨c, ID⟩)

/-- The loop of `callback_gotresponse` that stops reading requests from each connection, over
the connections active when it starts (each iteration frees at most its own connection). -/
def stopReadingLoop (D : DispatchState) : List ℕ → Option DispatchState
  | [] => some D
  | c :: cs =>
    match D.find c with
    | none => none
    | some S =>
      match (if S.reading then readreqCancel D c else some D) with
      | none => none
      | some D => stopReadingLoop D cs

/-- `callback_gotresponse(F, buf, buflen)`: a response is written back to the connection with
the client's ID; a failed request marks the target failed and stops reading requests from every
connection.  Returns the packet written (connection, ID, payload). -/
def callbackGotresponse (D : DispatchState) (F : Forwardee) (buf : Option (List UInt8)) :
    Option (DispatchState × Option (ℕ × ℕ × List UInt8)) :=
  match D.find F.conn with
  | none => none
  | some _ =>
    match buf with
    | some b => (reqdone D F.conn).map fun D => (D, some (F.conn, F.ID, b))
    | none =>
      match reqdone D F.conn with
      | none => none
      | some D =>
        let D := { acceptStop D with failed := true }
        (stopReadingLoop D D.conns).map fun D => (D, none)

/-- `dispatch_alive(dstate)`. -/
def dispatchAlive (D : DispatchState) : Bool := D.failed = false || 0 < D.nsockActive

/-- The sanity checks of `dispatch_done(dstate)`. -/
def dispatchDone (D : DispatchState) : Option Unit :=
  if D.failed = true ∧ D.sockActive = [] ∧ D.nsockActive = 0 then some () else none

/-! ## Finding and updating a connection -/

section Find

variable {D : DispatchState} {c : ℕ} {S : SockActive} {f : SockActive → SockActive}

theorem find_eq_some (h : D.find c = some S) : S ∈ D.sockActive ∧ S.conn = c := by
  unfold find at h
  exact ⟨List.mem_of_find?_eq_some h, by simpa using List.find?_some h⟩

theorem find_isSome_iff : (D.find c).isSome ↔ c ∈ D.conns := by
  simp [find, conns, List.find?_isSome]

/-- With distinct connection numbers, an active connection is found by its number. -/
theorem find?_conn_of_mem {l : List SockActive} (hnd : (l.map (·.conn)).Nodup) (hS : S ∈ l) :
    l.find? (·.conn = S.conn) = some S := by
  induction l with
  | nil => cases hS
  | cons S' l ih =>
    rw [List.map_cons, List.nodup_cons] at hnd
    rcases List.mem_cons.mp hS with rfl | hS
    · simp
    · have hne : S'.conn ≠ S.conn := fun h => hnd.1 (h ▸ List.mem_map_of_mem hS)
      simp [hne, ih hnd.2 hS]

/-- Dropping a connection takes one off the active ones. -/
theorem length_filter_conn_ne {l : List SockActive} (hnd : (l.map (·.conn)).Nodup) (hS : S ∈ l) :
    (l.filter (·.conn ≠ S.conn)).length + 1 = l.length := by
  induction l with
  | nil => cases hS
  | cons S' l ih =>
    rw [List.map_cons, List.nodup_cons] at hnd
    by_cases h : S'.conn = S.conn
    · -- `S'` is the connection dropped; no other has its number
      have hl : l.filter (·.conn ≠ S.conn) = l := by
        refine List.filter_eq_self.mpr fun S'' hS'' => ?_
        have hne : S''.conn ≠ S'.conn := fun e => hnd.1 (e ▸ List.mem_map_of_mem hS'')
        simpa [← h] using hne
      rw [List.filter_cons_of_neg (by simpa using h), hl, List.length_cons]
    · have hS : S ∈ l := by
        rcases List.mem_cons.mp hS with rfl | hS
        · exact absurd rfl h
        · exact hS
      have hlen := ih hnd.2 hS
      rw [List.filter_cons_of_pos (by simpa using h)]
      simp only [List.length_cons]
      omega

variable (hf : ∀ S, (f S).conn = S.conn)
include hf

/-- Updating a connection leaves every connection where it was. -/
theorem find_update (c' : ℕ) :
    (D.update c f).find c' = (D.find c').map fun S => if S.conn = c then f S else S := by
  unfold find update
  rw [List.find?_map]
  congr 2
  funext S
  by_cases h : S.conn = c <;> simp [h, hf]

theorem find_update_self (hS : D.find c = some S) : (D.update c f).find c = some (f S) := by
  rw [find_update hf, hS, Option.map_some, if_pos (find_eq_some hS).2]

theorem conns_update : (D.update c f).conns = D.conns := by
  simp only [conns, update, List.map_map]
  refine List.map_congr_left fun S _ => ?_
  by_cases h : S.conn = c <;> simp [h, hf]

end Find

@[simp] theorem update_nsockActive (D : DispatchState) (c : ℕ) (f : SockActive → SockActive) :
    (D.update c f).nsockActive = D.nsockActive := rfl

@[simp] theorem update_nsockActiveMax (D : DispatchState) (c : ℕ) (f : SockActive → SockActive) :
    (D.update c f).nsockActiveMax = D.nsockActiveMax := rfl

@[simp] theorem update_accepting (D : DispatchState) (c : ℕ) (f : SockActive → SockActive) :
    (D.update c f).accepting = D.accepting := rfl

@[simp] theorem length_update (D : DispatchState) (c : ℕ) (f : SockActive → SockActive) :
    (D.update c f).sockActive.length = D.sockActive.length := List.length_map _

/-! ## The invariant of the dispatcher -/

/-- The dispatcher with the cookies `P` whose callbacks have not run, each with a tag. -/
structure DInv (D : DispatchState) (P : List (ℕ × Forwardee)) : Prop where
  nsock : D.nsockActive = D.sockActive.length
  nodup : D.conns.Nodup
  /-- A connection owes a response for each of its cookies pending. -/
  owed : ∀ S ∈ D.sockActive, S.nrequests = P.countP (·.2.conn = S.conn)
  /-- Every pending cookie names an active connection. -/
  live : ∀ p ∈ P, p.2.conn ∈ D.conns
  /-- While accepting, the limit is not reached (or no connection is active). -/
  accepting : D.accepting = true → D.nsockActive < D.nsockActiveMax ∨ D.nsockActive = 0

section Operations

variable {D : DispatchState} {P : List (ℕ × Forwardee)} {c : ℕ} {S : SockActive}

theorem DInv.setReading (hD : DInv D P) (c : ℕ) :
    DInv (D.update c fun S => { S with reading := false }) P := by
  have hconns := conns_update (D := D) (c := c) (f := fun S => { S with reading := false })
    fun _ => rfl
  refine ⟨by simpa using hD.nsock, hconns ▸ hD.nodup, ?_, fun p hp => hconns ▸ hD.live p hp,
    by simpa using hD.accepting⟩
  simp only [update, List.forall_mem_map]
  intro S hS
  split_ifs <;> exact hD.owed S hS

/-- With the limit of accepting kept, removing a connection that owes nothing keeps the
invariant. -/
theorem DInv.remove (hD : DInv D P) (hS : S ∈ D.sockActive) (hn : S.nrequests = 0) (a : Bool)
    (ha : a = true → D.nsockActive - 1 < D.nsockActiveMax ∨ D.nsockActive - 1 = 0) :
    DInv { D with
      sockActive := D.sockActive.filter (·.conn ≠ S.conn)
      nsockActive := D.nsockActive - 1
      accepting := a } P := by
  -- no pending cookie names the connection removed
  have hnone : ∀ p ∈ P, p.2.conn ≠ S.conn := by
    have howed := hD.owed S hS
    rw [hn, eq_comm, List.countP_eq_zero] at howed
    simpa using howed
  have hconns : (D.sockActive.filter (·.conn ≠ S.conn)).map (·.conn) = D.conns.filter (· ≠ S.conn) := by
    simp [conns, List.filter_map, Function.comp_def]
  refine ⟨?_, ?_, ?_, ?_, ha⟩
  · have hlen := length_filter_conn_ne hD.nodup hS
    have hnsock := hD.nsock
    simp only
    omega
  · show ((D.sockActive.filter (·.conn ≠ S.conn)).map (·.conn)).Nodup
    rw [hconns]
    exact hD.nodup.filter _
  · intro S' hS'
    exact hD.owed S' (List.mem_of_mem_filter hS')
  · intro p hp
    show p.2.conn ∈ (D.sockActive.filter (·.conn ≠ S.conn)).map (·.conn)
    rw [hconns]
    exact List.mem_filter.mpr ⟨hD.live p hp, by simpa using hnone p hp⟩

/-- `dropconn` on a connection that owes nothing and reads no more passes its checks; an accept
it starts finds none pending. -/
theorem DInv.dropconn (hD : DInv D P) (hS : D.find c = some S) (hr : S.reading = false)
    (hn : S.nrequests = 0) :
    ∃ D', dropconn D c = some D' ∧ DInv D' P ∧ D'.conns = D.conns.filter (· ≠ c) := by
  obtain ⟨hmem, rfl⟩ := find_eq_some hS
  have hpos : 0 < D.nsockActive := by
    rw [hD.nsock]
    exact List.length_pos_of_mem hmem
  have hconns : (D.sockActive.filter (·.conn ≠ S.conn)).map (·.conn) = D.conns.filter (· ≠ S.conn) := by
    simp [conns, List.filter_map, Function.comp_def]
  unfold Kivaloo.Mux.dropconn
  rw [hS]
  simp only [hr, hn, Bool.false_eq_true, ne_eq, not_true_eq_false, or_self, if_false]
  split_ifs with hmax
  · -- the limit was reached, so no accept was pending
    have hacc : D.accepting = false := by
      cases h : D.accepting
      · rfl
      · rcases hD.accepting h with h' | h' <;> omega
    refine ⟨_, by simp [acceptStart, hacc], hD.remove hmem hn true fun _ => ?_, hconns⟩
    omega
  · refine ⟨_, rfl, hD.remove hmem hn D.accepting fun h => ?_, hconns⟩
    rcases hD.accepting h with h' | h' <;> omega

/-- Stopping reading keeps the invariant; it drops at most the connection itself. -/
theorem DInv.stopReading (hD : DInv D P) (hc : c ∈ D.conns) :
    ∃ D', stopReading D c = some D' ∧ DInv D' P ∧
      (D'.conns = D.conns ∨ D'.conns = D.conns.filter (· ≠ c)) := by
  obtain ⟨S, hS⟩ := Option.isSome_iff_exists.mp (find_isSome_iff.mpr hc)
  have hD₁ := hD.setReading c
  have hconns := conns_update (D := D) (c := c) (f := fun S => { S with reading := false })
    fun _ => rfl
  unfold Kivaloo.Mux.stopReading
  simp only [hS]
  split_ifs with hn
  · -- it owes nothing: dropped
    obtain ⟨D', hdrop, hD', hconns'⟩ :=
      hD₁.dropconn (find_update_self (fun _ => rfl) hS) rfl (by simpa using hn)
    exact ⟨D', hdrop, hD', .inr (hconns ▸ hconns')⟩
  · exact ⟨_, rfl, hD₁, .inl hconns⟩

/-- One response fewer is owed for the cookie answered. -/
theorem DInv.decr (hD : DInv D P) {t : ℕ} {F : Forwardee} (hp : (t, F) ∈ P) :
    DInv (D.update F.conn fun S => { S with nrequests := S.nrequests - 1 }) (P.erase (t, F)) := by
  have hconns := conns_update (D := D) (c := F.conn)
    (f := fun S => { S with nrequests := S.nrequests - 1 }) fun _ => rfl
  refine ⟨by simpa using hD.nsock, hconns ▸ hD.nodup, ?_,
    fun p hp' => hconns ▸ hD.live p (List.mem_of_mem_erase hp'), by simpa using hD.accepting⟩
  simp only [update, List.forall_mem_map]
  intro S hS
  have howed := hD.owed S hS
  by_cases h : S.conn = F.conn
  · -- the connection of the cookie answered owes one response fewer
    rw [h] at howed
    simp only [h, if_true]
    rw [List.countP_erase, if_pos ⟨hp, by simp⟩, ← howed]
  · have hF : ¬decide ((t, F).2.conn = S.conn) = true := by simpa using Ne.symm h
    simp only [h, if_false]
    rw [List.countP_erase, if_neg fun h' => hF h'.2, Nat.sub_zero, howed]

/-- `reqdone` for a pending cookie keeps the invariant with the cookie answered. -/
theorem DInv.reqdone (hD : DInv D P) {t : ℕ} {F : Forwardee} (hp : (t, F) ∈ P) :
    ∃ D', reqdone D F.conn = some D' ∧ DInv D' (P.erase (t, F)) ∧
      (D'.conns = D.conns ∨ D'.conns = D.conns.filter (· ≠ F.conn)) := by
  obtain ⟨S, hS⟩ :=
    Option.isSome_iff_exists.mp (find_isSome_iff.mpr (hD.live _ hp : F.conn ∈ D.conns))
  obtain ⟨hmem, hconn⟩ := find_eq_some hS
  -- the cookie answered is owed
  have hpos : 0 < S.nrequests := by
    rw [hD.owed S hmem]
    exact List.countP_pos_iff.mpr ⟨(t, F), hp, by simp [hconn]⟩
  have hD₁ := hD.decr hp
  have hconns := conns_update (D := D) (c := F.conn)
    (f := fun S => { S with nrequests := S.nrequests - 1 }) fun _ => rfl
  unfold Kivaloo.Mux.reqdone
  simp only [hS]
  rw [if_neg (by omega)]
  split_ifs with hdone
  · obtain ⟨D', hdrop, hD', hconns'⟩ :=
      hD₁.dropconn (find_update_self (fun _ => rfl) hS) hdone.2 hdone.1
    exact ⟨D', hdrop, hD', .inr (hconns ▸ hconns')⟩
  · exact ⟨_, rfl, hD₁, .inl hconns⟩

/-- The loop over the connections active at its start keeps the invariant. -/
theorem DInv.stopReadingLoop (hD : DInv D P) (cs : List ℕ) (hnd : cs.Nodup)
    (hcs : ∀ c ∈ cs, c ∈ D.conns) :
    ∃ D', stopReadingLoop D cs = some D' ∧ DInv D' P ∧ ∀ c ∈ D'.conns, c ∈ D.conns := by
  induction cs generalizing D with
  | nil => exact ⟨D, rfl, hD, fun _ h => h⟩
  | cons c cs ih =>
    rw [List.nodup_cons] at hnd
    obtain ⟨S, hS⟩ := Option.isSome_iff_exists.mp (find_isSome_iff.mpr (hcs c List.mem_cons_self))
    -- after this iteration the connections still to visit are active, and no new one is
    have hnext : ∃ D₁, (if S.reading then readreqCancel D c else some D) = some D₁ ∧ DInv D₁ P ∧
        ∀ c', c' ≠ c → (c' ∈ D₁.conns ↔ c' ∈ D.conns) := by
      split_ifs
      · obtain ⟨D₁, h₁, hD₁, hconns⟩ := hD.stopReading (hcs c List.mem_cons_self)
        refine ⟨D₁, h₁, hD₁, fun c' hc' => ?_⟩
        rcases hconns with h | h <;> simp [h, hc']
      · exact ⟨D, rfl, hD, fun _ _ => Iff.rfl⟩
    obtain ⟨D₁, h₁, hD₁, hconns⟩ := hnext
    have hcs₁ : ∀ c' ∈ cs, c' ∈ D₁.conns := fun c' hc' =>
      (hconns c' fun e => hnd.1 (e ▸ hc')).mpr (hcs c' (List.mem_cons_of_mem _ hc'))
    obtain ⟨D', h', hD', hsub⟩ := ih hD₁ hnd.2 hcs₁
    refine ⟨D', ?_, hD', fun c' hc' => ?_⟩
    · simp only [Kivaloo.Mux.stopReadingLoop, hS, h₁, h']
    · have hc₁ := hsub c' hc'
      by_cases e : c' = c
      · exact e ▸ hcs c List.mem_cons_self
      · exact (hconns c' e).mp hc₁

/-- A callback for a pending cookie writes the payload back to the cookie's connection with the
client's ID, or, for a failed request, marks the target failed and stops reading. -/
theorem DInv.gotresponse (hD : DInv D P) {t : ℕ} {F : Forwardee} (hp : (t, F) ∈ P)
    (buf : Option (List UInt8)) :
    ∃ D', callbackGotresponse D F buf = some (D', buf.map fun b => (F.conn, F.ID, b)) ∧
      DInv D' (P.erase (t, F)) ∧ ∀ c ∈ D'.conns, c ∈ D.conns := by
  obtain ⟨S, hS⟩ := Option.isSome_iff_exists.mp (find_isSome_iff.mpr (hD.live _ hp))
  obtain ⟨D₁, h₁, hD₁, hconns₁⟩ := hD.reqdone hp
  have hsub₁ : ∀ c ∈ D₁.conns, c ∈ D.conns := by
    rcases hconns₁ with h | h <;> simp +contextual [h]
  unfold callbackGotresponse
  rw [hS]
  cases buf with
  | some b => exact ⟨D₁, by simp [h₁], hD₁, hsub₁⟩
  | none =>
    -- the target failed: accepting stops, which the invariant allows
    have hD₂ : DInv { acceptStop D₁ with failed := true } (P.erase (t, F)) :=
      ⟨hD₁.nsock, hD₁.nodup, hD₁.owed, hD₁.live, fun h => absurd h (by simp [acceptStop])⟩
    obtain ⟨D', h', hD', hsub⟩ := hD₂.stopReadingLoop _ hD₁.nodup fun c hc => hc
    refine ⟨D', ?_, hD', fun c hc => hsub₁ c (hsub c hc)⟩
    simp only [h₁]
    exact congrArg (Option.map fun D => (D, none)) h'

/-- A packet read from an active connection is forwarded, and one more response is owed. -/
theorem DInv.gotrequest (hD : DInv D P) (hc : c ∈ D.conns) (t ID : ℕ) :
    ∃ D', callbackGotrequest D c ID = some (D', ⟨c, ID⟩) ∧ DInv D' (P ++ [(t, ⟨c, ID⟩)]) ∧
      D'.conns = D.conns := by
  obtain ⟨S, hS⟩ := Option.isSome_iff_exists.mp (find_isSome_iff.mpr hc)
  have hconns := conns_update (D := D) (c := c)
    (f := fun S => { S with nrequests := S.nrequests + 1 }) fun _ => rfl
  refine ⟨_, by simp [callbackGotrequest, hS], ⟨by simpa using hD.nsock, hconns ▸ hD.nodup, ?_,
    ?_, by simpa using hD.accepting⟩, hconns⟩
  · simp only [update, List.forall_mem_map]
    intro S' hS'
    have howed := hD.owed S' hS'
    rw [List.countP_append]
    by_cases h : S'.conn = c
    · rw [h] at howed
      simp [h, howed]
    · simp [h, Ne.symm h, howed]
  · intro p hp
    rw [hconns]
    rcases List.mem_append.mp hp with hp | hp
    · exact hD.live p hp
    · simp [List.mem_singleton.mp hp, hc]

/-- An accepted connection gets a fresh number and reads requests; accepting starts again below
the limit, with no accept pending. -/
theorem DInv.gotconn (hD : DInv D P) (hfresh : ∀ c' ∈ D.conns, c' < c) :
    ∃ D', callbackGotconn D c = some D' ∧ DInv D' P ∧ D'.conns = c :: D.conns := by
  have hnew : c ∉ D.conns := fun h => lt_irrefl c (hfresh c h)
  have hD₁ : DInv { acceptStop D with
      sockActive := ⟨c, true, 0⟩ :: D.sockActive
      nsockActive := D.nsockActive + 1 } P := by
    refine ⟨by simp [hD.nsock], List.nodup_cons.mpr ⟨hnew, hD.nodup⟩, ?_, ?_, ?_⟩
    · intro S hS
      rcases List.mem_cons.mp hS with rfl | hS
      · -- no pending cookie names the new connection
        refine (List.countP_eq_zero.mpr fun p hp => ?_).symm
        have := hD.live p hp
        simp only [decide_eq_true_eq]
        exact fun e => hnew (e ▸ this)
      · exact hD.owed S hS
    · exact fun p hp => List.mem_cons_of_mem _ (hD.live p hp)
    · simp [acceptStop]
  unfold callbackGotconn
  dsimp only
  split_ifs with hlt
  · -- accepting stopped first, so starting it again finds no accept pending
    unfold acceptStart
    rw [if_neg (by simp [acceptStop])]
    exact ⟨_, rfl, ⟨hD₁.nsock, hD₁.nodup, hD₁.owed, hD₁.live, fun _ => .inl hlt⟩, rfl⟩
  · exact ⟨_, rfl, hD₁, rfl⟩

end Operations

/-! ## The dispatcher and its upstream -/

/-- The dispatcher with what happened around it: the connections accepted so far (the next one
is numbered `accepted`), the requests forwarded so far (`tags`), the cookies whose callbacks have
not run, each with the number of its request, the callbacks run with their payloads or `NULL`,
and the packets written back to clients (connection, ID, payload). -/
structure MWorld where
  D : DispatchState
  accepted : ℕ
  tags : ℕ
  pending : List (ℕ × Forwardee)
  answers : List (ℕ × Forwardee × Option (List UInt8))
  written : List (ℕ × ℕ × List UInt8)

/-- A dispatcher just made by `dispatch_init` with the limit `maxconn`. -/
def mInit (maxconn : ℕ) (W : MWorld) : Prop :=
  ∃ D, dispatchInit maxconn = some D ∧ W = ⟨D, 0, 0, [], [], []⟩

/-- The events of the dispatcher, each a callback run to completion. -/
inductive MStep : MWorld → MWorld → Prop
  /-- A listening socket accepts a connection. -/
  | gotconn {W : MWorld} {D : DispatchState} :
      W.D.accepting = true → callbackGotconn W.D W.accepted = some D →
      MStep W { W with D := D, accepted := W.accepted + 1 }
  /-- A connection waiting for requests reads one, which is forwarded upstream. -/
  | gotrequest {W : MWorld} {c ID : ℕ} {S : SockActive} {D : DispatchState} {F : Forwardee} :
      W.D.find c = some S → S.reading = true → callbackGotrequest W.D c ID = some (D, F) →
      MStep W { W with D := D, tags := W.tags + 1, pending := W.pending ++ [(W.tags, F)] }
  /-- Waiting for or reading requests from a connection fails. -/
  | gotrequestsFail {W : MWorld} {c : ℕ} {S : SockActive} {D : DispatchState} :
      W.D.find c = some S → S.reading = true → callbackGotrequestsFail W.D c = some D →
      MStep W { W with D := D }
  /-- The upstream runs the callback of a pending cookie, with the response or with `NULL`. -/
  | gotresponse {W : MWorld} {t : ℕ} {F : Forwardee} {buf : Option (List UInt8)}
      {D : DispatchState} {pkt : Option (ℕ × ℕ × List UInt8)} :
      (t, F) ∈ W.pending → callbackGotresponse W.D F buf = some (D, pkt) →
      MStep W { W with
        D := D
        pending := W.pending.erase (t, F)
        answers := W.answers ++ [(t, F, buf)]
        written := W.written ++ pkt.toList }

namespace MWorld

/-- The invariant of the dispatcher and its upstream. -/
structure Inv (W : MWorld) : Prop where
  dinv : DInv W.D W.pending
  fresh : ∀ c ∈ W.D.conns, c < W.accepted
  /-- Each request forwarded is pending or answered, not both, and answered once. -/
  tags : (W.pending.map (·.1) ++ W.answers.map (·.1)).Perm (List.range W.tags)
  /-- A packet is written for each answer with a payload: to the request's connection, with the
  client's ID. -/
  written : W.written = W.answers.filterMap fun a => a.2.2.map fun b => (a.2.1.conn, a.2.1.ID, b)

theorem init_inv {maxconn : ℕ} {W : MWorld} (h : mInit maxconn W) : W.Inv := by
  obtain ⟨D, hD, rfl⟩ := h
  simp only [dispatchInit, acceptStart, Bool.false_eq_true, if_false, Option.some.injEq] at hD
  subst hD
  exact ⟨⟨rfl, List.nodup_nil, by simp, by simp, fun _ => .inr rfl⟩, by simp [conns], by simp, rfl⟩

theorem MStep.inv {W W' : MWorld} (hW : W.Inv) (h : MStep W W') : W'.Inv := by
  cases h with
  | gotconn _ h =>
    obtain ⟨D', h', hD', hconns⟩ := hW.dinv.gotconn hW.fresh
    obtain rfl := Option.some.inj (h.symm.trans h')
    refine ⟨hD', fun c hc => ?_, hW.tags, hW.written⟩
    rw [hconns] at hc
    rcases List.mem_cons.mp hc with rfl | hc
    · exact Nat.lt_succ_self _
    · exact Nat.lt_succ_of_lt (hW.fresh c hc)
  | @gotrequest c ID S _ _ hS _ h =>
    have hc : c ∈ W.D.conns := (find_eq_some hS).2 ▸ List.mem_map_of_mem (find_eq_some hS).1
    obtain ⟨D', h', hD', hconns⟩ := hW.dinv.gotrequest hc W.tags ID
    obtain ⟨rfl, rfl⟩ := Prod.mk.inj (Option.some.inj (h.symm.trans h'))
    refine ⟨hD', fun c hc => hW.fresh c (hconns ▸ hc), ?_, hW.written⟩
    -- the new request joins the pending ones
    have hadd := perm_add W.tags hW.tags
    simpa [List.range_succ] using hadd
  | @gotrequestsFail c S _ hS _ h =>
    have hc : c ∈ W.D.conns := (find_eq_some hS).2 ▸ List.mem_map_of_mem (find_eq_some hS).1
    obtain ⟨D', h', hD', hconns⟩ := hW.dinv.stopReading hc
    obtain rfl := Option.some.inj (h.symm.trans h')
    refine ⟨hD', fun c' hc' => hW.fresh c' ?_, hW.tags, hW.written⟩
    rcases hconns with h | h <;> rw [h] at hc'
    · exact hc'
    · exact List.mem_of_mem_filter hc'
  | @gotresponse t F buf _ _ hp h =>
    obtain ⟨D', h', hD', hsub⟩ := hW.dinv.gotresponse hp buf
    obtain ⟨rfl, rfl⟩ := Prod.mk.inj (Option.some.inj (h.symm.trans h'))
    refine ⟨hD', fun c hc => hW.fresh c (hsub c hc), ?_, ?_⟩
    · -- the request answered moves from the pending ones to the answered ones
      have hmove := perm_move hW.tags ((List.perm_cons_erase hp).map (·.1))
      simpa [List.map_erase] using hmove
    · rw [hW.written, List.filterMap_append]
      cases buf <;> simp

theorem reachable_inv {maxconn : ℕ} {W : MWorld} (h : Reachable (mInit maxconn) MStep W) :
    W.Inv :=
  h.invariant (fun _ => init_inv) fun _ _ hW hst => MStep.inv hW hst

end MWorld

/-! ## Every response goes back to its origin -/

/-- The connections `0 .. k - 1`, newest first, each reading and owing nothing: the connections
after `k` accepts. -/
def freshConns (k : ℕ) : List SockActive := (List.range k).reverse.map fun c => ⟨c, true, 0⟩

theorem freshConns_succ (k : ℕ) : freshConns (k + 1) = ⟨k, true, 0⟩ :: freshConns k := by
  simp [freshConns, List.range_succ]

theorem conn_lt_of_mem_freshConns {k : ℕ} {S : SockActive} (h : S ∈ freshConns k) :
    S.conn < k := by
  simp only [freshConns, List.mem_map, List.mem_reverse, List.mem_range] at h
  obtain ⟨c, hc, rfl⟩ := h
  exact hc

/-- An update of the newest connection leaves the older ones as they are. -/
theorem map_freshConns_of_ne (k : ℕ) (f : SockActive → SockActive) :
    (freshConns k).map (fun S => if S.conn = k then f S else S) = freshConns k := by
  conv_rhs => rw [← List.map_id (freshConns k)]
  refine List.map_congr_left fun S hS => ?_
  rw [if_neg (Nat.ne_of_lt (conn_lt_of_mem_freshConns hS))]
  rfl

/-- `k` accepts under a limit `m ≥ k`: accepting goes on while the count is below the limit. -/
theorem reachable_accepted {m : ℕ} (hm : 0 < m) :
    ∀ k, k ≤ m → Reachable (mInit m) MStep
      ⟨⟨freshConns k, k, m, decide (k < m), false⟩, k, 0, [], [], []⟩
  | 0, _ => .init ⟨⟨[], 0, m, true, false⟩, by simp [dispatchInit, acceptStart],
      by simp [freshConns, hm]⟩
  | k + 1, hk => by
    have hprev := reachable_accepted hm k (by omega)
    have hgot : callbackGotconn ⟨freshConns k, k, m, decide (k < m), false⟩ k =
        some ⟨freshConns (k + 1), k + 1, m, decide (k + 1 < m), false⟩ := by
      by_cases h : k + 1 < m
      · simp [callbackGotconn, acceptStop, acceptStart, h, freshConns_succ]
      · simp [callbackGotconn, acceptStop, h, freshConns_succ]
    exact hprev.tail (MStep.gotconn (by simp; omega) hgot)

/-- Stopping the reading of the newest of `k + 1` fresh connections drops it; `dropconn` starts
accepting when the count was at the limit. -/
theorem readreqCancel_freshConns {k m : ℕ} {acc : Bool}
    (hacc : k + 1 = m ∧ acc = false ∨ k + 1 < m ∧ acc = true) :
    readreqCancel ⟨freshConns (k + 1), k + 1, m, acc, true⟩ k =
      some ⟨freshConns k, k, m, true, true⟩ := by
  have hfind : (⟨freshConns (k + 1), k + 1, m, acc, true⟩ : DispatchState).find k =
      some ⟨k, true, 0⟩ := by
    simp [find, freshConns_succ]
  have hupd : (⟨freshConns (k + 1), k + 1, m, acc, true⟩ : DispatchState).update k
      (fun S => { S with reading := false }) = ⟨⟨k, false, 0⟩ :: freshConns k, k + 1, m, acc, true⟩ := by
    simp [update, freshConns_succ, map_freshConns_of_ne]
  have hfilter : (⟨k, false, 0⟩ :: freshConns k).filter (fun S => decide (S.conn ≠ k)) =
      freshConns k := by
    rw [List.filter_cons_of_neg (by simp), List.filter_eq_self]
    intro S hS
    simpa using Nat.ne_of_lt (conn_lt_of_mem_freshConns hS)
  rw [readreqCancel, stopReading, hfind]
  simp only
  rw [hupd, if_pos trivial, dropconn]
  have hfind' : (⟨⟨k, false, 0⟩ :: freshConns k, k + 1, m, acc, true⟩ : DispatchState).find k =
      some ⟨k, false, 0⟩ := by
    simp [find]
  rw [hfind']
  simp only [Bool.false_eq_true, ne_eq, not_true_eq_false, or_self, if_false, hfilter,
    Nat.add_sub_cancel]
  rcases hacc with ⟨hkm, rfl⟩ | ⟨hkm, rfl⟩
  · simp [hkm, acceptStart]
  · simp [Nat.ne_of_lt hkm]

/-- The loop of `callback_gotresponse` over `k` fresh connections drops them all, and accepting
is on at the end: started by the first drop at the limit, or already on below it. -/
theorem stopReadingLoop_freshConns {m : ℕ} (hm : 0 < m) :
    ∀ k (acc : Bool), (k = m ∧ acc = false ∨ k < m ∧ acc = true) →
      stopReadingLoop ⟨freshConns k, k, m, acc, true⟩ ((freshConns k).map (·.conn)) =
        some ⟨[], 0, m, true, true⟩
  | 0, acc, hacc => by
    obtain ⟨rfl, -⟩ | ⟨-, rfl⟩ := hacc
    · omega
    · rfl
  | k + 1, acc, hacc => by
    have hfind : (⟨freshConns (k + 1), k + 1, m, acc, true⟩ : DispatchState).find k =
        some ⟨k, true, 0⟩ := by
      simp [find, freshConns_succ]
    have hrest := stopReadingLoop_freshConns hm k true (.inr ⟨by omega, rfl⟩)
    rw [freshConns_succ, List.map_cons, stopReadingLoop, ← freshConns_succ, hfind]
    simp only [if_true]
    rw [readreqCancel_freshConns hacc]
    exact hrest

/-- Under any limit `m ≥ 1`: `m` connections are accepted, so accepting stops; the first one
forwards request 5, which the target fails; stopping the reading of the newest connection drops
it while the count is at the limit, and `dropconn` starts accepting again. -/
def failedAcceptingWorld (m : ℕ) : MWorld :=
  ⟨⟨[], 0, m, true, true⟩, m, 1, [], [(0, ⟨0, 5⟩, none)], []⟩

/-- Each of the fresh connections is found by its number. -/
theorem find_freshConns {c : ℕ} : ∀ {k : ℕ}, c < k →
    (freshConns k).find? (·.conn = c) = some ⟨c, true, 0⟩
  | 0, h => absurd h (Nat.not_lt_zero c)
  | k + 1, h => by
    rw [freshConns_succ]
    by_cases hc : k = c
    · subst hc
      simp
    · rw [List.find?_cons_of_neg (by simpa using hc)]
      exact find_freshConns (by omega)

theorem reachable_failedAcceptingWorld {m : ℕ} (hm : 0 < m) :
    Reachable (mInit m) MStep (failedAcceptingWorld m) := by
  have hfull := reachable_accepted hm m (Nat.le_refl m)
  simp only [lt_irrefl, decide_false] at hfull
  set D₀ : DispatchState := ⟨freshConns m, m, m, false, false⟩
  have hfind : D₀.find 0 = some ⟨0, true, 0⟩ := find_freshConns hm
  -- connection 0 forwards request 5, and owes a response
  set D₁ := D₀.update 0 fun S => { S with nrequests := S.nrequests + 1 }
  have hreq : callbackGotrequest D₀ 0 5 = some (D₁, ⟨0, 5⟩) := by
    simp [callbackGotrequest, hfind, D₁]
  have h₁ := hfull.tail (@MStep.gotrequest _ 0 5 _ _ _ hfind rfl hreq)
  -- the target fails the request: the response is no longer owed, and reading stops
  have hfind₁ : D₁.find 0 = some ⟨0, true, 1⟩ :=
    find_update_self (f := fun S => { S with nrequests := S.nrequests + 1 }) (fun _ => rfl) hfind
  have hback : D₁.update 0 (fun S => { S with nrequests := S.nrequests - 1 }) = D₀ := by
    simp only [D₁, D₀, update, List.map_map]
    congr 1
    conv_rhs => rw [← List.map_id (freshConns m)]
    refine List.map_congr_left fun S _ => ?_
    obtain ⟨c, r, n⟩ := S
    by_cases h : c = 0 <;> simp [h]
  have hloop := stopReadingLoop_freshConns hm m false (.inl ⟨rfl, rfl⟩)
  have hresp : callbackGotresponse D₁ ⟨0, 5⟩ none = some (⟨[], 0, m, true, true⟩, none) := by
    simp only [callbackGotresponse, hfind₁, reqdone, hback]
    simp [acceptStop, conns, D₀, hloop]
  have h₂ := h₁.tail (@MStep.gotresponse _ 0 ⟨0, 5⟩ none _ _ (List.mem_singleton_self _) hresp)
  convert h₂ using 1
  simp [failedAcceptingWorld]

theorem reachable_acceptAfterFailure :
    ∀ m, 0 < m → Reachable (mInit m) MStep (failedAcceptingWorld m) ∧
      (failedAcceptingWorld m).D.failed = true ∧ (failedAcceptingWorld m).D.accepting = true :=
  fun _ hm => ⟨reachable_failedAcceptingWorld hm, rfl, rfl⟩

theorem reachable_acceptAfterFailure_one :
    0 < 1 ∧ (Reachable (mInit 1) MStep (failedAcceptingWorld 1) ∧
      (failedAcceptingWorld 1).D.failed = true ∧ (failedAcceptingWorld 1).D.accepting = true) :=
  ⟨by decide, reachable_acceptAfterFailure 1 (by decide)⟩

end Kivaloo.Mux
