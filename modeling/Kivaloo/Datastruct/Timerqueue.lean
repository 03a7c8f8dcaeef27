import Mathlib
import Kivaloo.Datastruct.PtrheapCookie
import Kivaloo.Lib.Transition

/-!
# Timer queues (libcperciva/datastruct/timerqueue.c)

A `timerqueue` is a `ptrheap` of records, each holding a time (`struct timeval`), the pointer the
timer was added with, and the record cookie `rc` that the heap's `setreccookie` writes.
`timerqueue_add` writes a new record, adds it to the heap and returns it as the timer's cookie;
`timerqueue_delete` and `timerqueue_increase` find the timer in the heap through the `rc` of the
record the cookie names.  `timerqueue_getptr(Q, tv)` removes a timer of least time, if that time
is not after `tv`, and returns its pointer.

The heap holds the addresses of the records, and `compar` reads their times: memory is a function
from addresses to records, written by `timerqueue_add`, `timerqueue_increase` and `setreccookie`,
and the heap's compare function is that of the memory as it is when the heap runs.  `malloc`
returns an address that no live record has.

What a timer queue is for is a set of timers by cookie (`Timerqueue.timers`), and each call acts
on them as `TimersSpec` says.  That the code does so, over every run of calls the interface allows
(`Timerqueue.Step`), rests on an invariant: the heap orders its entries by the times of their
records, and every record's `rc` is its position in the heap (`Timerqueue.Inv`), so that the
cookie of a timer always finds it.
-/

namespace Kivaloo.Datastruct

open Kivaloo.Lib Ptrheap

/-- `struct timeval`: seconds and microseconds. -/
structure Timeval where
  sec : ℤ
  usec : ℤ
deriving DecidableEq, Repr

/-- `tvcmp(x, y)`: by seconds, then by microseconds. -/
def tvcmp (x y : Timeval) : ℤ :=
  if x.sec > y.sec then 1
  else if x.sec < y.sec then -1
  else if x.usec > y.usec then 1
  else if x.usec < y.usec then -1
  else 0

/-- The order of times that `tvcmp` compares by. -/
def Timeval.key (tv : Timeval) : ℤ ×ₗ ℤ := toLex (tv.sec, tv.usec)

theorem keyed_tvcmp : Keyed tvcmp Timeval.key where
  neg_iff x y := by
    simp only [tvcmp, Timeval.key, Prod.Lex.toLex_lt_toLex]
    split_ifs <;> omega
  pos_iff x y := by
    simp only [tvcmp, Timeval.key, Prod.Lex.toLex_lt_toLex]
    split_ifs <;> omega

/-- `struct timerrec`: the time, the record cookie and the pointer of a timer. -/
structure Timerrec (β : Type*) where
  tv : Timeval
  rc : ℕ
  ptr : β

/-- `struct timerqueue`: the heap of the addresses of the records, with the memory they are in. -/
structure Timerqueue (β : Type*) where
  H : Ptrheap ℕ
  mem : ℕ → Timerrec β

namespace Timerqueue

variable {β : Type*}

/-- `compar(cookie, x, y)`: the times of the records at `x` and at `y`, compared. -/
def compar (mem : ℕ → Timerrec β) (x y : ℕ) : ℤ := tvcmp (mem x).tv (mem y).tv

/-- `setreccookie(cookie, ptr, rc)`: `rc` written into the record at `ptr`. -/
def setreccookie (mem : ℕ → Timerrec β) (ptr rc : ℕ) : ℕ → Timerrec β :=
  Function.update mem ptr { mem ptr with rc := rc }

/-- The calls of the heap to `setreccookie`, in order. -/
def setreccookies (mem : ℕ → Timerrec β) (calls : List (ℕ × ℕ)) : ℕ → Timerrec β :=
  calls.foldl (fun mem c => setreccookie mem c.1 c.2) mem

end Timerqueue

open Timerqueue

variable {β : Type*}

/-- `timerqueue_init()`, the records to be written into the memory `mem`. -/
def timerqueueInit (mem : ℕ → Timerrec β) : Timerqueue β := ⟨ptrheapInit (compar mem), mem⟩

/-- `timerqueue_add(Q, tv, ptr)`, where `malloc` returns the address `r`: the record is written,
added to the heap, which tells it its position, and returned as the cookie. -/
def timerqueueAdd (Q : Timerqueue β) (tv : Timeval) (ptr : β) (r : ℕ) : Timerqueue β × ℕ :=
  let mem := Function.update Q.mem r { Q.mem r with tv := tv, ptr := ptr }
  let H := { Q.H with compar := compar mem }
  (⟨ptrheapAdd H r, setreccookies mem (ptrheapAddCalls H r)⟩, r)

/-- `timerqueue_delete(Q, cookie)`: the entry at the record's `rc` is deleted from the heap;
`none` where `rc` is not a position of the heap. -/
def timerqueueDelete (Q : Timerqueue β) (cookie : ℕ) : Option (Timerqueue β) :=
  (ptrheapDelete Q.H (Q.mem cookie).rc).map fun H =>
    ⟨H, setreccookies Q.mem (ptrheapDeleteCalls Q.H (Q.mem cookie).rc)⟩

/-- `timerqueue_increase(Q, cookie, tv)`: the record's time is written, then the entry at its
`rc` sifts down. -/
def timerqueueIncrease (Q : Timerqueue β) (cookie : ℕ) (tv : Timeval) : Timerqueue β :=
  let mem := Function.update Q.mem cookie { Q.mem cookie with tv := tv }
  let H := { Q.H with compar := compar mem }
  ⟨ptrheapIncrease H (mem cookie).rc, setreccookies mem (ptrheapIncreaseCalls H (mem cookie).rc)⟩

/-- `timerqueue_getmin(Q)`: the time of the record at the root, or NULL. -/
def timerqueueGetmin (Q : Timerqueue β) : Option Timeval :=
  (ptrheapGetmin Q.H).map fun r => (Q.mem r).tv

/-- `timerqueue_getptr(Q, tv)`: if the record at the root has a time not after `tv`, it is deleted
and its pointer returned.  (`setreccookie` writes only cookies, so the pointer read after the
deletion is the one before it.) -/
def timerqueueGetptr (Q : Timerqueue β) (tv : Timeval) : Option β × Timerqueue β :=
  match ptrheapGetmin Q.H with
  | none => (none, Q)
  | some r =>
    if tvcmp (Q.mem r).tv tv > 0 then (none, Q)
    else
      match ptrheapDeletemin Q.H with
      | none => (none, Q)
      | some H => (some (Q.mem r).ptr, ⟨H, setreccookies Q.mem (ptrheapDeleteminCalls Q.H)⟩)

/-! ## Memory -/

namespace Timerqueue

theorem keyed_compar (mem : ℕ → Timerrec β) : Keyed (compar mem) fun r => (mem r).tv.key :=
  ⟨fun _ _ => keyed_tvcmp.neg_iff _ _, fun _ _ => keyed_tvcmp.pos_iff _ _⟩

@[simp] theorem setreccookies_tv (mem : ℕ → Timerrec β) (calls : List (ℕ × ℕ)) (r : ℕ) :
    (setreccookies mem calls r).tv = (mem r).tv := by
  induction calls generalizing mem with
  | nil => rfl
  | cons c calls ih =>
    rw [setreccookies, List.foldl_cons, ← setreccookies, ih, setreccookie, Function.update_apply]
    split_ifs with h
    · rw [h]
    · rfl

@[simp] theorem setreccookies_ptr (mem : ℕ → Timerrec β) (calls : List (ℕ × ℕ)) (r : ℕ) :
    (setreccookies mem calls r).ptr = (mem r).ptr := by
  induction calls generalizing mem with
  | nil => rfl
  | cons c calls ih =>
    rw [setreccookies, List.foldl_cons, ← setreccookies, ih, setreccookie, Function.update_apply]
    split_ifs with h
    · rw [h]
    · rfl

/-- The cookies in the records after the heap's calls are those a caller keeping the last cookie
of each record has. -/
theorem rc_setreccookies (mem : ℕ → Timerrec β) (calls : List (ℕ × ℕ)) :
    (fun r => (setreccookies mem calls r).rc) = applyCalls (fun r => (mem r).rc) calls := by
  induction calls generalizing mem with
  | nil => rfl
  | cons c calls ih =>
    rw [setreccookies, List.foldl_cons, ← setreccookies, ih, applyCalls_cons]
    congr 1
    funext r
    rw [setreccookie, Function.update_apply, Function.update_apply]
    split_ifs <;> rfl

end Timerqueue

/-! ## The timers by cookie -/

/-- The timers of a queue: each live cookie with its time and pointer. -/
def Timerqueue.timers (Q : Timerqueue β) (c : ℕ) : Option (Timeval × β) :=
  if c ∈ Q.H.elems then some ((Q.mem c).tv, (Q.mem c).ptr) else none

/-- A call on a timer queue, with what it returns. -/
inductive TimerCall (β : Type*)
  | add (tv : Timeval) (ptr : β) (cookie : ℕ)
  | delete (cookie : ℕ)
  | increase (cookie : ℕ) (tv : Timeval)
  | getmin (ret : Option Timeval)
  | getptr (tv : Timeval) (ret : Option β)

/-- What each call does to the timers, by cookie: `add` adds a timer under a new cookie, `delete`
removes the cookie's timer, `increase` gives it a new time, `getmin` returns the least time, and
`getptr` takes a timer of least time and returns its pointer if that time is not after `tv`,
and returns nothing if every timer is later. -/
inductive TimersSpec : (ℕ → Option (Timeval × β)) → TimerCall β → (ℕ → Option (Timeval × β)) → Prop
  | add {T : ℕ → Option (Timeval × β)} {c : ℕ} {tv : Timeval} {ptr : β} :
      T c = none → TimersSpec T (.add tv ptr c) (Function.update T c (some (tv, ptr)))
  | delete {T : ℕ → Option (Timeval × β)} {c : ℕ} {tv : Timeval} {ptr : β} :
      T c = some (tv, ptr) → TimersSpec T (.delete c) (Function.update T c none)
  | increase {T : ℕ → Option (Timeval × β)} {c : ℕ} {tv tv' : Timeval} {ptr : β} :
      T c = some (tv, ptr) → TimersSpec T (.increase c tv') (Function.update T c (some (tv', ptr)))
  | getmin_none {T : ℕ → Option (Timeval × β)} :
      (∀ c, T c = none) → TimersSpec T (.getmin none) T
  | getmin_some {T : ℕ → Option (Timeval × β)} {c : ℕ} {tv : Timeval} {ptr : β} :
      T c = some (tv, ptr) → (∀ c' tv' ptr', T c' = some (tv', ptr') → tv.key ≤ tv'.key) →
        TimersSpec T (.getmin (some tv)) T
  | getptr_none {T : ℕ → Option (Timeval × β)} {tv : Timeval} :
      (∀ c tv' ptr', T c = some (tv', ptr') → tv.key < tv'.key) → TimersSpec T (.getptr tv none) T
  | getptr_some {T : ℕ → Option (Timeval × β)} {tv : Timeval} {c : ℕ} {tv' : Timeval} {ptr : β} :
      T c = some (tv', ptr) → tv'.key ≤ tv.key →
        (∀ c'' tv'' ptr'', T c'' = some (tv'', ptr'') → tv'.key ≤ tv''.key) →
        TimersSpec T (.getptr tv (some ptr)) (Function.update T c none)

/-- `timerqueue_getptr` removes at most one timer and changes no other. -/
theorem TimersSpec.getptr_sub {T T' : ℕ → Option (Timeval × β)} {tv : Timeval} {ret : Option β}
    (h : TimersSpec T (.getptr tv ret) T') {c : ℕ} {x : Timeval × β} (hc : T' c = some x) :
    T c = some x := by
  generalize he : TimerCall.getptr tv ret = e at h
  cases h with
  | getptr_none => exact hc
  | @getptr_some _ c' _ _ _ _ _ =>
    by_cases hcc : c = c'
    · rw [hcc, Function.update_self] at hc
      exact absurd hc (Option.some_ne_none x).symm
    · rwa [Function.update_of_ne hcc] at hc
  | _ => cases he

namespace Timerqueue

/-- The calls `timerqueue.h` allows: `timerqueue_add` at an address no live record has,
`timerqueue_delete` of a live cookie, `timerqueue_increase` of a live cookie to a time no earlier,
and `timerqueue_getmin` and `timerqueue_getptr` at any time. -/
inductive Step : Timerqueue β → TimerCall β → Timerqueue β → Prop
  | add (Q : Timerqueue β) (tv : Timeval) (ptr : β) (r : ℕ) (hr : r ∉ Q.H.elems) :
      Step Q (.add tv ptr (timerqueueAdd Q tv ptr r).2) (timerqueueAdd Q tv ptr r).1
  | delete (Q : Timerqueue β) (c : ℕ) (hc : c ∈ Q.H.elems) (Q' : Timerqueue β)
      (h : timerqueueDelete Q c = some Q') : Step Q (.delete c) Q'
  | increase (Q : Timerqueue β) (c : ℕ) (tv : Timeval) (hc : c ∈ Q.H.elems)
      (htv : (Q.mem c).tv.key ≤ tv.key) : Step Q (.increase c tv) (timerqueueIncrease Q c tv)
  | getmin (Q : Timerqueue β) : Step Q (.getmin (timerqueueGetmin Q)) Q
  | getptr (Q : Timerqueue β) (tv : Timeval) :
      Step Q (.getptr tv (timerqueueGetptr Q tv).1) (timerqueueGetptr Q tv).2

/-- The states of a timer queue over every run of calls from `timerqueue_init`. -/
def Reached (Q : Timerqueue β) : Prop :=
  Reachable (fun Q => ∃ mem, Q = timerqueueInit mem) (fun Q Q' => ∃ e, Step Q e Q') Q

/-- The key of an address: the time of the record there. -/
def tkey (mem : ℕ → Timerrec β) (r : ℕ) : ℤ ×ₗ ℤ := (mem r).tv.key

/-- What holds between calls: the heap orders its entries by the times of their records, the
entries are distinct, and every record's `rc` is its position. -/
structure Inv (Q : Timerqueue β) : Prop where
  holds : Q.H.Holds (tkey Q.mem) Q.H.elems
  nodup : Q.H.elems.Nodup
  cookies : CookiesAt (fun r => (Q.mem r).rc) Q.H.elems

theorem timerqueueInit_inv (mem : ℕ → Timerrec β) : (timerqueueInit mem).Inv := by
  have he : (timerqueueInit mem).H.elems = [] := rfl
  refine ⟨ptrheapInit_holds (keyed_compar mem), he ▸ List.nodup_nil, fun i x h => ?_⟩
  rw [he] at h
  simp at h

/-! ## Each call -/

variable {Q : Timerqueue β}

theorem timers_eq_none {c : ℕ} : Q.timers c = none ↔ c ∉ Q.H.elems := by
  unfold timers
  split_ifs with h <;> simp [h]

theorem timers_eq_some {c : ℕ} {tv : Timeval} {p : β} :
    Q.timers c = some (tv, p) ↔ c ∈ Q.H.elems ∧ (Q.mem c).tv = tv ∧ (Q.mem c).ptr = p := by
  unfold timers
  split_ifs with h <;> simp [h]

/-- A live timer's record knows where it is in the heap. -/
theorem Inv.pos_of_mem (hQ : Q.Inv) {c : ℕ} (hc : c ∈ Q.H.elems) :
    (Q.mem c).rc < Q.H.nelems ∧ ptrlistGet Q.H.elems (Q.mem c).rc = c := by
  obtain ⟨i, hi⟩ := List.mem_iff_getElem?.mp hc
  have hrc : (Q.mem c).rc = i := hQ.cookies i c hi
  have hil : i < Q.H.elems.length := (List.getElem?_eq_some_iff.mp hi).1
  rw [hrc, hQ.holds.nelems_eq]
  exact ⟨hil, Option.some.inj ((getElem?_eq_ptrlistGet hil).symm.trans hi)⟩

/-- Deleting the entry at `rc` from the heap, as `timerqueue_delete` and `timerqueue_getptr` do,
removes the timer of that entry and keeps the invariant. -/
theorem Inv.deleteAt (hQ : Q.Inv) {rc : ℕ} {H' : Ptrheap ℕ}
    (hdel : ptrheapDelete Q.H rc = some H') :
    (⟨H', setreccookies Q.mem (ptrheapDeleteCalls Q.H rc)⟩ : Timerqueue β).Inv ∧
      (⟨H', setreccookies Q.mem (ptrheapDeleteCalls Q.H rc)⟩ : Timerqueue β).timers =
        Function.update Q.timers (ptrlistGet Q.H.elems rc) none := by
  have hrc : rc < Q.H.nelems := by
    by_contra hn
    simp [ptrheapDelete, hn] at hdel
  obtain ⟨H'', hdel', hH'⟩ := hQ.holds.delete hrc
  rw [hdel, Option.some.injEq] at hdel'
  subst hdel'
  set c := ptrlistGet Q.H.elems rc
  have hkey : tkey (setreccookies Q.mem (ptrheapDeleteCalls Q.H rc)) = tkey Q.mem :=
    funext fun x => by simp only [tkey, setreccookies_tv]
  have hnd : H'.elems.Nodup := by
    rw [← Multiset.coe_nodup, hH'.elems_eq]
    exact Multiset.Nodup.erase c (Multiset.coe_nodup.mpr hQ.nodup)
  have hmem : ∀ x, x ∈ H'.elems ↔ x ≠ c ∧ x ∈ Q.H.elems := fun x => by
    rw [← Multiset.mem_coe, hH'.elems_eq, (Multiset.coe_nodup.mpr hQ.nodup).mem_erase_iff,
      Multiset.mem_coe]
  refine ⟨⟨?_, hnd, ?_⟩, ?_⟩
  · rw [hkey]
    exact ⟨hH'.keyed, hH'.nelems_eq, hH'.heap, rfl⟩
  · show CookiesAt (fun x => (setreccookies Q.mem (ptrheapDeleteCalls Q.H rc) x).rc) H'.elems
    rw [rc_setreccookies]
    exact hQ.cookies.delete hQ.holds.keyed hQ.nodup hQ.holds.nelems_eq hdel
  · funext x
    by_cases hx : x = c
    · rw [hx, Function.update_self, timers, if_neg fun h => ((hmem c).mp h).1 rfl]
    · rw [Function.update_of_ne hx, timers, timers]
      simp only [hmem, hx, ne_eq, not_false_eq_true, true_and, setreccookies_tv,
        setreccookies_ptr]

/-- `timerqueue_delete` of a live cookie removes its timer. -/
theorem Inv.delete (hQ : Q.Inv) {c : ℕ} (hc : c ∈ Q.H.elems) {Q' : Timerqueue β}
    (h : timerqueueDelete Q c = some Q') :
    Q'.Inv ∧ Q'.timers = Function.update Q.timers c none := by
  obtain ⟨hrc, hget⟩ := hQ.pos_of_mem hc
  obtain ⟨H', hH', -⟩ := hQ.holds.delete hrc
  rw [timerqueueDelete, hH', Option.map_some, Option.some.injEq] at h
  have hdel := hQ.deleteAt hH'
  rw [hget, h] at hdel
  exact hdel

/-- `timerqueue_add` at a free address adds the timer under the cookie it returns. -/
theorem Inv.add (hQ : Q.Inv) {r : ℕ} (hr : r ∉ Q.H.elems) (tv : Timeval) (ptr : β) :
    (timerqueueAdd Q tv ptr r).1.Inv ∧
      (timerqueueAdd Q tv ptr r).1.timers = Function.update Q.timers r (some (tv, ptr)) := by
  dsimp only [timerqueueAdd]
  set mem := Function.update Q.mem r { Q.mem r with tv := tv, ptr := ptr } with hmemdef
  set H : Ptrheap ℕ := { Q.H with compar := compar mem }
  -- the new record is outside the heap: the keys and cookies of the entries are as they were
  have hkey : ∀ x ∈ Q.H.elems, tkey mem x = tkey Q.mem x := fun x hx => by
    have hxr : x ≠ r := fun h => hr (h ▸ hx)
    rw [tkey, tkey, hmemdef, Function.update_of_ne hxr]
  have hrc : (fun x => (mem x).rc) = fun x => (Q.mem x).rc := by
    funext x
    rw [hmemdef, Function.update_apply]
    split_ifs with h
    · rw [h]
    · rfl
  have hH : (ptrheapAdd H r).Holds (tkey mem) (r ::ₘ Q.H.elems) :=
    (hQ.holds.congr (keyed_compar mem) hkey).add r
  have hmem : ∀ x, x ∈ (ptrheapAdd H r).elems ↔ x = r ∨ x ∈ Q.H.elems := fun x => by
    rw [← Multiset.mem_coe, hH.elems_eq, Multiset.mem_cons, Multiset.mem_coe]
  have hkey' : tkey (setreccookies mem (ptrheapAddCalls H r)) = tkey mem :=
    funext fun x => by simp only [tkey, setreccookies_tv]
  refine ⟨⟨?_, ?_, ?_⟩, ?_⟩
  · rw [hkey']
    exact ⟨hH.keyed, hH.nelems_eq, hH.heap, rfl⟩
  · rw [← Multiset.coe_nodup, hH.elems_eq, Multiset.nodup_cons]
    exact ⟨hr, hQ.nodup⟩
  · show CookiesAt (fun x => (setreccookies mem (ptrheapAddCalls H r) x).rc) (ptrheapAdd H r).elems
    rw [rc_setreccookies, hrc]
    exact CookiesAt.add (H := H) hQ.cookies hQ.nodup hQ.holds.nelems_eq hr
  · funext x
    by_cases hx : x = r
    · rw [hx, Function.update_self, timers, if_pos ((hmem r).mpr (Or.inl rfl))]
      simp [hmemdef]
    · rw [Function.update_of_ne hx, timers, timers]
      simp only [hmem, hx, false_or, setreccookies_tv, setreccookies_ptr, hmemdef,
        Function.update_of_ne hx]

/-- `timerqueue_increase` of a live cookie to a no earlier time sets the time of its timer. -/
theorem Inv.increase (hQ : Q.Inv) {c : ℕ} (hc : c ∈ Q.H.elems) {tv : Timeval}
    (htv : (Q.mem c).tv.key ≤ tv.key) :
    (timerqueueIncrease Q c tv).Inv ∧
      (timerqueueIncrease Q c tv).timers = Function.update Q.timers c (some (tv, (Q.mem c).ptr)) := by
  obtain ⟨hrc, hget⟩ := hQ.pos_of_mem hc
  dsimp only [timerqueueIncrease]
  set mem := Function.update Q.mem c { Q.mem c with tv := tv } with hmemdef
  set H : Ptrheap ℕ := { Q.H with compar := compar mem }
  have hmc : mem c = { Q.mem c with tv := tv } := by rw [hmemdef, Function.update_self]
  have hrcs : (fun x => (mem x).rc) = fun x => (Q.mem x).rc := by
    funext x
    rw [hmemdef, Function.update_apply]
    split_ifs with h
    · rw [h]
    · rfl
  have hmrc : (mem c).rc = (Q.mem c).rc := congrFun hrcs c
  rw [hmrc]
  -- only the key of the timer's own entry has changed, and it has grown
  have hH : (ptrheapIncrease H (Q.mem c).rc).Holds (tkey mem) Q.H.elems := by
    refine hQ.holds.increase_key hQ.nodup hrc (keyed_compar mem) (fun x _ hx => ?_) ?_
    · rw [hget] at hx
      rw [tkey, tkey, hmemdef, Function.update_of_ne hx]
    · rw [hget, tkey, tkey, hmc]
      exact htv
  have hmem : ∀ x, x ∈ (ptrheapIncrease H (Q.mem c).rc).elems ↔ x ∈ Q.H.elems := fun x => by
    rw [← Multiset.mem_coe, hH.elems_eq, Multiset.mem_coe]
  have hkey' : tkey (setreccookies mem (ptrheapIncreaseCalls H (Q.mem c).rc)) = tkey mem :=
    funext fun x => by simp only [tkey, setreccookies_tv]
  refine ⟨⟨?_, ?_, ?_⟩, ?_⟩
  · rw [hkey']
    exact ⟨hH.keyed, hH.nelems_eq, hH.heap, rfl⟩
  · rw [← Multiset.coe_nodup, hH.elems_eq]
    exact Multiset.coe_nodup.mpr hQ.nodup
  · show CookiesAt (fun x => (setreccookies mem (ptrheapIncreaseCalls H (Q.mem c).rc) x).rc)
      (ptrheapIncrease H (Q.mem c).rc).elems
    rw [rc_setreccookies, hrcs]
    exact CookiesAt.increase (H := H) hQ.cookies hQ.nodup hQ.holds.nelems_eq _
  · funext x
    by_cases hx : x = c
    · rw [hx, Function.update_self, timers, if_pos ((hmem c).mpr hc)]
      simp [hmc]
    · rw [Function.update_of_ne hx, timers, timers]
      simp only [hmem, setreccookies_tv, setreccookies_ptr, hmemdef, Function.update_of_ne hx]

/-- `timerqueue_getmin` returns the least time of the timers, and NULL when there is none. -/
theorem Inv.getmin (hQ : Q.Inv) : TimersSpec Q.timers (.getmin (timerqueueGetmin Q)) Q.timers := by
  rcases hm : ptrheapGetmin Q.H with _ | r
  · have hempty : ∀ c, Q.timers c = none := fun c => by
      rw [timers_eq_none, ← Multiset.mem_coe, (hQ.holds.getmin_eq_none).mp hm]
      exact Multiset.notMem_zero c
    rw [timerqueueGetmin, hm, Option.map_none]
    exact .getmin_none hempty
  · obtain ⟨hr, hmin⟩ := hQ.holds.getmin_spec hm
    rw [timerqueueGetmin, hm, Option.map_some]
    refine .getmin_some (c := r) (if_pos (Multiset.mem_coe.mp hr))
      fun c tv ptr hc => ?_
    rw [timers] at hc
    split_ifs at hc with hcm
    rw [← (Prod.mk.inj (Option.some.inj hc)).1]
    exact hmin c (Multiset.mem_coe.mpr hcm)

/-- `timerqueue_getptr` takes a timer of least time if it is due, and nothing if none is. -/
theorem Inv.getptr (hQ : Q.Inv) (tv : Timeval) :
    (timerqueueGetptr Q tv).2.Inv ∧
      TimersSpec Q.timers (.getptr tv (timerqueueGetptr Q tv).1) (timerqueueGetptr Q tv).2.timers := by
  -- every timer is of a live record, whose key is at least that of the root
  have hlive : ∀ {c tv' ptr'}, Q.timers c = some (tv', ptr') → c ∈ Q.H.elems ∧ (Q.mem c).tv = tv' :=
    fun hc => by
      rw [timers] at hc
      split_ifs at hc with hcm
      exact ⟨hcm, (Prod.mk.inj (Option.some.inj hc)).1⟩
  rcases hm : ptrheapGetmin Q.H with _ | r
  · simp only [timerqueueGetptr, hm]
    refine ⟨hQ, .getptr_none fun c tv' ptr' hc => ?_⟩
    have hempty := (hQ.holds.getmin_eq_none).mp hm
    have := Multiset.mem_coe.mpr (hlive hc).1
    rw [hempty] at this
    exact absurd this (Multiset.notMem_zero c)
  · obtain ⟨hr, hmin⟩ := hQ.holds.getmin_spec hm
    by_cases hlate : tvcmp (Q.mem r).tv tv > 0
    · -- the root is later than `tv`, and so is every timer
      simp only [timerqueueGetptr, hm, if_pos hlate]
      refine ⟨hQ, .getptr_none fun c tv' ptr' hc => ?_⟩
      obtain ⟨hcm, rfl⟩ := hlive hc
      exact ((keyed_tvcmp.pos_iff _ _).mp hlate).trans_le (hmin c (Multiset.mem_coe.mpr hcm))
    · -- the root is due: it is deleted and its pointer returned
      have h0 : 0 < Q.H.nelems := by
        rw [ptrheapGetmin] at hm
        split_ifs at hm with h
        omega
      obtain ⟨H', hdel, -⟩ := hQ.holds.delete h0
      have hroot : ptrlistGet Q.H.elems 0 = r := by
        rw [ptrheapGetmin, if_pos (by omega)] at hm
        exact Option.some.inj hm
      have hdel' : ptrheapDeletemin Q.H = some H' := hdel
      simp only [timerqueueGetptr, hm, if_neg hlate, hdel']
      obtain ⟨hinv, htimers⟩ := hQ.deleteAt hdel
      rw [hroot] at htimers
      refine ⟨hinv, ?_⟩
      rw [ptrheapDeleteminCalls, htimers]
      refine .getptr_some (if_pos (Multiset.mem_coe.mp hr)) ?_ fun c tv' ptr' hc => ?_
      · exact not_lt.mp fun h => hlate ((keyed_tvcmp.pos_iff _ _).mpr h)
      · obtain ⟨hcm, rfl⟩ := hlive hc
        exact hmin c (Multiset.mem_coe.mpr hcm)

/-! ## Every run -/

/-- Each call the interface allows keeps the invariant. -/
theorem Step.inv {e : TimerCall β} {Q' : Timerqueue β} (hQ : Q.Inv) (h : Step Q e Q') : Q'.Inv := by
  cases h with
  | add tv ptr r hr => exact (hQ.add hr tv ptr).1
  | delete c hc Q' hdel =>
    obtain ⟨hrc, -⟩ := hQ.pos_of_mem hc
    obtain ⟨H', hH', -⟩ := hQ.holds.delete hrc
    rw [timerqueueDelete, hH', Option.map_some, Option.some.injEq] at hdel
    rw [← hdel]
    exact (hQ.deleteAt hH').1
  | increase c tv hc htv => exact (hQ.increase hc htv).1
  | getmin => exact hQ
  | getptr tv => exact (hQ.getptr tv).1

/-- Every state over every run keeps the invariant. -/
theorem reached_inv {Q : Timerqueue β} (h : Reached Q) : Q.Inv := by
  refine h.invariant (fun Q₀ ⟨mem, h₀⟩ => ?_) fun _ _ hI ⟨_, hs⟩ => hs.inv hI
  rw [h₀]
  exact timerqueueInit_inv mem

/-- Over every run of calls from `timerqueue_init`, no record is in the heap twice and the `rc`
of every live record is its position, so that `timerqueue_delete` of a live cookie deletes within
the heap. -/
theorem reached_rc_eq_pos {Q : Timerqueue β} (h : Reached Q) :
    Q.H.elems.Nodup ∧ (∀ i c, Q.H.elems[i]? = some c → (Q.mem c).rc = i) ∧
      ∀ c ∈ Q.H.elems, ∃ Q', timerqueueDelete Q c = some Q' := by
  have hQ := reached_inv h
  refine ⟨hQ.nodup, hQ.cookies, fun c hc => ?_⟩
  obtain ⟨hrc, -⟩ := hQ.pos_of_mem hc
  obtain ⟨H', hH', -⟩ := hQ.holds.delete hrc
  exact ⟨_, by rw [timerqueueDelete, hH', Option.map_some]⟩

/-- Over every run of calls from `timerqueue_init`, each call acts on the timers by cookie as
`TimersSpec` says: the timer queue refines a map from cookies to timers. -/
theorem reached_timersSpec {Q Q' : Timerqueue β} {e : TimerCall β} (h : Reached Q)
    (hs : Step Q e Q') : TimersSpec Q.timers e Q'.timers := by
  have hQ := reached_inv h
  cases hs with
  | add tv ptr r hr =>
    rw [(hQ.add hr tv ptr).2]
    exact .add (timers_eq_none.mpr hr)
  | delete c hc Q' hdel =>
    obtain ⟨hrc, hget⟩ := hQ.pos_of_mem hc
    obtain ⟨H', hH', -⟩ := hQ.holds.delete hrc
    rw [timerqueueDelete, hH', Option.map_some, Option.some.injEq] at hdel
    rw [← hdel, (hQ.deleteAt hH').2, hget]
    exact .delete (if_pos hc)
  | increase c tv hc htv =>
    rw [(hQ.increase hc htv).2]
    exact .increase (if_pos hc)
  | getmin => exact hQ.getmin
  | getptr tv => exact (hQ.getptr tv).2

end Timerqueue

/-- Memory in which no record has been written. -/
def emptyMem : ℕ → Timerrec ℕ := fun _ => ⟨⟨0, 0⟩, 0, 0⟩

/-- Five timers with pointers 1 to 5, at 5 s, 3.5 s, 4 s, 1 s and 6 s, whose records `malloc`
places at addresses 7 to 11: the second and the fourth sift up. -/
def fiveTimers : Timerqueue ℕ :=
  [(⟨5, 0⟩, 1, 7), (⟨3, 500000⟩, 2, 8), (⟨4, 0⟩, 3, 9), (⟨1, 0⟩, 4, 10), (⟨6, 0⟩, 5, 11)].foldl
    (fun Q (t : Timeval × ℕ × ℕ) => (timerqueueAdd Q t.1 t.2.1 t.2.2).1) (timerqueueInit emptyMem)

/-- `fiveTimers` after the timer at 3.5 s, at the inner position 1, is deleted: the last entry
moves there and sifts down past the timer at 5 s. -/
def fourTimers : Timerqueue ℕ := (timerqueueDelete fiveTimers 8).getD fiveTimers

/-- `fourTimers` after the timer at 1 s is put off to 7 s, and sifts down from the root. -/
def laterTimers : Timerqueue ℕ := timerqueueIncrease fourTimers 10 ⟨7, 0⟩

theorem fiveTimers_reached : fiveTimers.Reached := by
  have h₀ : (timerqueueInit emptyMem).Reached := .init ⟨emptyMem, rfl⟩
  exact ((((h₀.tail ⟨_, .add _ _ _ 7 (by with_unfolding_all decide)⟩).tail
    ⟨_, .add _ _ _ 8 (by with_unfolding_all decide)⟩).tail
    ⟨_, .add _ _ _ 9 (by with_unfolding_all decide)⟩).tail
    ⟨_, .add _ _ _ 10 (by with_unfolding_all decide)⟩).tail
    ⟨_, .add _ _ _ 11 (by with_unfolding_all decide)⟩

theorem timerqueueDelete_fiveTimers : timerqueueDelete fiveTimers 8 = some fourTimers := by
  obtain ⟨Q, hQ⟩ := Option.isSome_iff_exists.mp
    (show (timerqueueDelete fiveTimers 8).isSome by with_unfolding_all decide)
  rw [fourTimers, hQ, Option.getD_some]

theorem laterTimers_reached : laterTimers.Reached :=
  (fiveTimers_reached.tail
    ⟨_, .delete _ 8 (by with_unfolding_all decide) _ timerqueueDelete_fiveTimers⟩).tail
    ⟨_, .increase _ 10 ⟨7, 0⟩ (by with_unfolding_all decide) (by with_unfolding_all decide)⟩

/-- After the adds, the inner delete and the increase, the records at addresses 9, 7, 10 and 11
hold their positions 0 to 3. -/
theorem laterTimers_rc_eq_pos :
    (laterTimers.H.elems = [9, 7, 10, 11] ∧
        laterTimers.H.elems.map (fun c => (laterTimers.mem c).rc) = [0, 1, 2, 3]) ∧
      laterTimers.H.elems.Nodup ∧ (∀ i c, laterTimers.H.elems[i]? = some c → (laterTimers.mem c).rc = i) ∧
      ∀ c ∈ laterTimers.H.elems, ∃ Q', timerqueueDelete laterTimers c = some Q' :=
  ⟨by with_unfolding_all decide, Timerqueue.reached_rc_eq_pos laterTimers_reached⟩

/-- The inner delete removes exactly the timer at 3.5 s, and `timerqueue_getptr` at 4.5 s after
the increase takes the timer at 4 s and returns its pointer 3. -/
theorem fiveTimers_timersSpec :
    (timerqueueGetptr laterTimers ⟨4, 500000⟩).1 = some 3 ∧
      TimersSpec fiveTimers.timers (.delete 8) fourTimers.timers ∧
      TimersSpec laterTimers.timers (.getptr ⟨4, 500000⟩ (timerqueueGetptr laterTimers ⟨4, 500000⟩).1)
        (timerqueueGetptr laterTimers ⟨4, 500000⟩).2.timers :=
  ⟨by with_unfolding_all decide,
    Timerqueue.reached_timersSpec fiveTimers_reached
      (.delete _ 8 (by with_unfolding_all decide) _ timerqueueDelete_fiveTimers),
    Timerqueue.reached_timersSpec laterTimers_reached (.getptr _ _)⟩

end Kivaloo.Datastruct
