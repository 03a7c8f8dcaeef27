import Mathlib
import Kivaloo.Datastruct.Timerqueue

/-!
# Timers of the event loop (libcperciva/events/events_timer.c)

`events_timer.c` keeps the timers of the event loop in one `timerqueue`, created when the first
timer is registered.  A timer is a record holding its event record, its cookie in the queue and
the timeout it was registered with; its deadline in the queue is `gettimeout`, the clock reading
plus the timeout.  `events_timer_reset` moves the deadline to the clock reading now plus the
timeout, through `timerqueue_increase`, and `events_timer_get` takes an expired timer out of the
queue with `timerqueue_getptr`.  `events_timer_min` says how long to wait for the first deadline.

The clock is `monoclock_get`: each call reads it, and it never goes back, and gives microseconds
below a million (`Timeval.Normal`).  That is what `timerqueue_increase` needs of
`events_timer_reset`: a deadline is the sum of an earlier reading and the same timeout, and a sum
of normal times grows with the reading (`gettimeout_key_le`).  Over every run of calls
(`TimerRun.Step`) the queue is therefore driven by calls its interface allows
(`TimerRun.reached_queue`), and from what a timer queue does (`Kivaloo.Datastruct.Timerqueue`)
follows what the event loop sees: `events_timer_get` returns an expired timer of earliest
deadline, and `events_timer_min` the time to the earliest deadline.
-/

namespace Kivaloo.Datastruct

/-- A time as `monoclock_get` reads it: microseconds from 0 to a million. -/
def Timeval.Normal (tv : Timeval) : Prop := 0 ≤ tv.usec ∧ tv.usec < 1000000

/-- A time in microseconds. -/
def Timeval.micros (tv : Timeval) : ℤ := tv.sec * 1000000 + tv.usec

/-- Between normal times, the order of `tvcmp` is the order of their microseconds. -/
theorem Timeval.key_le_iff {a b : Timeval} (ha : a.Normal) (hb : b.Normal) :
    a.key ≤ b.key ↔ a.micros ≤ b.micros := by
  rw [Timeval.key, Timeval.key, Prod.Lex.toLex_le_toLex, Timeval.micros, Timeval.micros]
  obtain ⟨ha₀, ha₁⟩ := ha
  obtain ⟨hb₀, hb₁⟩ := hb
  omega

end Kivaloo.Datastruct

namespace Kivaloo.Events

open Kivaloo.Lib
open Kivaloo.Datastruct (Timeval Timerqueue TimerCall TimersSpec timerqueueInit timerqueueAdd
  timerqueueDelete timerqueueIncrease timerqueueGetmin timerqueueGetptr keyed_tvcmp)

/-- `gettimeout(tv, tdelta)`, where `monoclock_get` has read `tnow`: `tnow + tdelta`, with a carry
from the microseconds. -/
def gettimeout (tnow tdelta : Timeval) : Timeval :=
  if tnow.usec + tdelta.usec ≥ 1000000 then
    ⟨tnow.sec + tdelta.sec + 1, tnow.usec + tdelta.usec - 1000000⟩
  else ⟨tnow.sec + tdelta.sec, tnow.usec + tdelta.usec⟩

/-- `struct timerrec`: the event record of a timer, its cookie in the queue, and the timeout it
was registered with. -/
structure Timerrec (ρ : Type*) where
  r : ρ
  cookie : ℕ
  tvOrig : Timeval

/-- The state of `events_timer.c`: the queue `Q`, NULL until a timer is registered, and the
memory holding the timer records. -/
structure EventsTimer (ρ : Type*) where
  Q : Option (Timerqueue ℕ)
  recs : ℕ → Timerrec ρ

/-- Memory not yet written: no record is read before it is written. -/
def freshMem : ℕ → Kivaloo.Datastruct.Timerrec ℕ := fun _ => ⟨⟨0, 0⟩, 0, 0⟩

variable {ρ : Type*}

/-- The queue: `Q`, or the one `timerqueue_init` creates where there is none yet. -/
def EventsTimer.queue (S : EventsTimer ρ) : Timerqueue ℕ :=
  match S.Q with
  | none => timerqueueInit freshMem
  | some Q => Q

/-- `events_timer_register(func, cookie, timeo)` with the clock at `tnow`, where `r` is the event
record of `func` and `cookie`, and `malloc` returns `t` for the timer record and `a` for the
queue's record: the deadline `tnow + timeo` is added to the queue, and `t` returned. -/
def eventsTimerRegister (S : EventsTimer ρ) (r : ρ) (timeo tnow : Timeval) (t a : ℕ) :
    EventsTimer ρ × ℕ :=
  (⟨some (timerqueueAdd S.queue (gettimeout tnow timeo) t a).1,
    Function.update S.recs t ⟨r, (timerqueueAdd S.queue (gettimeout tnow timeo) t a).2, timeo⟩⟩, t)

/-- `events_timer_cancel(cookie)`: the timer of the record `t` deleted from the queue; `none`
where there is no queue. -/
def eventsTimerCancel (S : EventsTimer ρ) (t : ℕ) : Option (EventsTimer ρ) :=
  match S.Q with
  | none => none
  | some Q => (timerqueueDelete Q (S.recs t).cookie).map fun Q' => { S with Q := some Q' }

/-- `events_timer_reset(cookie)` with the clock at `tnow`: the deadline of the timer of the record
`t` moved to `tnow` plus its timeout; `none` where there is no queue. -/
def eventsTimerReset (S : EventsTimer ρ) (t : ℕ) (tnow : Timeval) : Option (EventsTimer ρ) :=
  match S.Q with
  | none => none
  | some Q =>
    some { S with Q := some (timerqueueIncrease Q (S.recs t).cookie
      (gettimeout tnow (S.recs t).tvOrig)) }

/-- The wait that `events_timer_min` computes from the clock at `tnow` to the deadline `tv`: zero
if `tnow` is past it, else the difference, with a borrow from the seconds. -/
def minWait (tnow tv : Timeval) : Timeval :=
  if tnow.sec > tv.sec ∨ (tnow.sec = tv.sec ∧ tnow.usec > tv.usec) then ⟨0, 0⟩
  else if tv.usec < tnow.usec then ⟨tv.sec - tnow.sec - 1, tv.usec - tnow.usec + 1000000⟩
  else ⟨tv.sec - tnow.sec, tv.usec - tnow.usec⟩

/-- `events_timer_min(timeo)` with the clock at `tnow`: the wait for the first deadline, or NULL if
there is no timer. -/
def eventsTimerMin (S : EventsTimer ρ) (tnow : Timeval) : Option Timeval :=
  match S.Q with
  | none => none
  | some Q => (timerqueueGetmin Q).map (minWait tnow)

/-- `events_timer_get(r)` with the clock at `tnow`: the event record of a timer whose deadline has
passed, taken out of the queue, or NULL. -/
def eventsTimerGet (S : EventsTimer ρ) (tnow : Timeval) : Option ρ × EventsTimer ρ :=
  match S.Q with
  | none => (none, S)
  | some Q =>
    ((timerqueueGetptr Q tnow).1.map fun t => (S.recs t).r,
      { S with Q := some (timerqueueGetptr Q tnow).2 })

/-! ## Sums of times -/

theorem micros_gettimeout (tnow tdelta : Timeval) :
    (gettimeout tnow tdelta).micros = tnow.micros + tdelta.micros := by
  unfold gettimeout Timeval.micros
  split_ifs <;> simp only <;> ring

theorem gettimeout_normal {tnow tdelta : Timeval} (hn : tnow.Normal) (hd : tdelta.Normal) :
    (gettimeout tnow tdelta).Normal := by
  obtain ⟨hn₀, hn₁⟩ := hn
  obtain ⟨hd₀, hd₁⟩ := hd
  unfold gettimeout Timeval.Normal
  split_ifs <;> simp only <;> omega

/-- The wait from a normal `tnow` to a normal deadline `tv` is normal, and it is zero if the
deadline has passed and reaches the deadline from `tnow` if not. -/
theorem minWait_spec {tnow tv : Timeval} (hn : tnow.Normal) (hv : tv.Normal) :
    (minWait tnow tv).Normal ∧
      if tv.key < tnow.key then minWait tnow tv = ⟨0, 0⟩ else gettimeout tnow (minWait tnow tv) = tv := by
  obtain ⟨sn, un⟩ := tnow
  obtain ⟨sv, uv⟩ := tv
  obtain ⟨hn₀, hn₁⟩ := hn
  obtain ⟨hv₀, hv₁⟩ := hv
  dsimp only at hn₀ hn₁ hv₀ hv₁
  -- the test of `events_timer_min` is the order of the two times
  have htest : (sn > sv ∨ (sn = sv ∧ un > uv)) ↔ Timeval.key ⟨sv, uv⟩ < Timeval.key ⟨sn, un⟩ := by
    rw [Timeval.key, Timeval.key, Prod.Lex.toLex_lt_toLex]
    dsimp only
    omega
  unfold minWait
  dsimp only
  by_cases hpast : sn > sv ∨ (sn = sv ∧ un > uv)
  · rw [if_pos hpast, if_pos (htest.mp hpast)]
    exact ⟨⟨le_refl _, by norm_num⟩, rfl⟩
  rw [if_neg hpast, if_neg (mt htest.mpr hpast)]
  by_cases hborrow : uv < un
  · -- a second is borrowed, and `gettimeout` carries it back
    rw [if_pos hborrow, gettimeout, if_pos (by dsimp only; omega)]
    refine ⟨⟨by dsimp only; omega, by dsimp only; omega⟩, ?_⟩
    simp only [Timeval.mk.injEq]
    omega
  · rw [if_neg hborrow, gettimeout, if_neg (by dsimp only; omega)]
    refine ⟨⟨by dsimp only; omega, by dsimp only; omega⟩, ?_⟩
    simp only [Timeval.mk.injEq]
    omega

/-- A deadline grows with the clock reading it is computed from. -/
theorem gettimeout_key_le {τ tnow tdelta : Timeval} (hτ : τ.Normal) (hn : tnow.Normal)
    (hd : tdelta.Normal) (hle : τ.key ≤ tnow.key) :
    (gettimeout τ tdelta).key ≤ (gettimeout tnow tdelta).key := by
  rw [Timeval.key_le_iff (gettimeout_normal hτ hd) (gettimeout_normal hn hd), micros_gettimeout,
    micros_gettimeout]
  have := (Timeval.key_le_iff hτ hn).mp hle
  omega

/-! ## The queue behind each call -/

section Queue

variable (S : EventsTimer ρ)

theorem queue_register (r : ρ) (timeo tnow : Timeval) (t a : ℕ) :
    (eventsTimerRegister S r timeo tnow t a).1.queue =
      (timerqueueAdd S.queue (gettimeout tnow timeo) t a).1 := rfl

theorem recs_register (r : ρ) (timeo tnow : Timeval) (t a : ℕ) :
    (eventsTimerRegister S r timeo tnow t a).1.recs = Function.update S.recs t ⟨r, a, timeo⟩ := rfl

/- With no queue yet, `events_timer_get` returns NULL and changes nothing, which is what
`timerqueue_getptr` does on a new queue: the three lemmas below read the call as one on `queue`. -/

theorem get_fst (tnow : Timeval) :
    (eventsTimerGet S tnow).1 = (timerqueueGetptr S.queue tnow).1.map fun t => (S.recs t).r := by
  unfold eventsTimerGet EventsTimer.queue
  rcases S.Q with _ | Q <;> rfl

theorem get_queue (tnow : Timeval) :
    (eventsTimerGet S tnow).2.queue = (timerqueueGetptr S.queue tnow).2 := by
  unfold eventsTimerGet EventsTimer.queue
  rcases hQ : S.Q with _ | Q
  · simp only [hQ]
    rfl
  · rfl

theorem min_eq (tnow : Timeval) :
    eventsTimerMin S tnow = (timerqueueGetmin S.queue).map (minWait tnow) := by
  unfold eventsTimerMin EventsTimer.queue
  rcases S.Q with _ | Q <;> rfl

theorem get_recs (tnow : Timeval) : (eventsTimerGet S tnow).2.recs = S.recs := by
  unfold eventsTimerGet
  rcases S.Q with _ | Q <;> rfl

end Queue

/-! ## Every run -/

/-- The timer records whose timers are in the queue: registered, and neither cancelled nor taken
by `events_timer_get`. -/
def EventsTimer.live (S : EventsTimer ρ) : List ℕ :=
  S.queue.H.elems.map fun a => (S.queue.mem a).ptr

theorem mem_live {S : EventsTimer ρ} {t : ℕ} :
    t ∈ S.live ↔ ∃ a tv, S.queue.timers a = some (tv, t) := by
  simp only [EventsTimer.live, List.mem_map, Timerqueue.timers_eq_some]
  exact ⟨fun ⟨a, ha, hp⟩ => ⟨a, _, ha, rfl, hp⟩, fun ⟨a, _, ha, _, hp⟩ => ⟨a, ha, hp⟩⟩

/-- The timers between calls, with the clock reading of the last call. -/
structure TimerRun (ρ : Type*) where
  S : EventsTimer ρ
  clock : Timeval

namespace TimerRun

/-- Before the first call: no queue, and a clock reading. -/
def Init (R : TimerRun ρ) : Prop := R.S.Q = none ∧ R.clock.Normal

/-- The calls of the event loop, each with a reading of a clock that never goes back: a timer
registered with a normal timeout, at a timer record and a queue record that `malloc` returns
fresh, a live timer cancelled or reset, and an expired timer asked for. -/
inductive Step : TimerRun ρ → TimerRun ρ → Prop
  | register (R : TimerRun ρ) (r : ρ) (timeo tnow : Timeval) (t a : ℕ) (hnow : tnow.Normal)
      (hclock : R.clock.key ≤ tnow.key) (htimeo : timeo.Normal) (ht : t ∉ R.S.live)
      (ha : a ∉ R.S.queue.H.elems) :
      Step R ⟨(eventsTimerRegister R.S r timeo tnow t a).1, tnow⟩
  | cancel (R : TimerRun ρ) (t : ℕ) (ht : t ∈ R.S.live) (S' : EventsTimer ρ)
      (h : eventsTimerCancel R.S t = some S') : Step R ⟨S', R.clock⟩
  | reset (R : TimerRun ρ) (t : ℕ) (tnow : Timeval) (hnow : tnow.Normal)
      (hclock : R.clock.key ≤ tnow.key) (ht : t ∈ R.S.live) (S' : EventsTimer ρ)
      (h : eventsTimerReset R.S t tnow = some S') : Step R ⟨S', tnow⟩
  | get (R : TimerRun ρ) (tnow : Timeval) (hnow : tnow.Normal) (hclock : R.clock.key ≤ tnow.key) :
      Step R ⟨(eventsTimerGet R.S tnow).2, tnow⟩

/-- A timer `(tv, t)` in the queue under the cookie `a`, as the records of `recs` and a clock at
`clock` account for it: the record `t` names the cookie, its timeout is normal, and the deadline
is the timeout added to a normal reading no later than `clock`. -/
def Accounted (recs : ℕ → Timerrec ρ) (clock : Timeval) (a : ℕ) (tv : Timeval) (t : ℕ) : Prop :=
  (recs t).cookie = a ∧ (recs t).tvOrig.Normal ∧
    ∃ τ : Timeval, τ.Normal ∧ τ.key ≤ clock.key ∧ tv = gettimeout τ (recs t).tvOrig

/-- What holds between calls: the queue is one that allowed calls reach from `timerqueue_init`,
the clock is normal, and every timer in the queue is accounted for. -/
structure Inv (R : TimerRun ρ) : Prop where
  reached : R.S.queue.Reached
  clock : R.clock.Normal
  timer : ∀ a tv t, R.S.queue.timers a = some (tv, t) → Accounted R.S.recs R.clock a tv t

theorem init_inv {R : TimerRun ρ} (h : R.Init) : R.Inv := by
  have hq : R.S.queue = timerqueueInit freshMem := by
    rw [EventsTimer.queue, h.1]
  refine ⟨hq ▸ .init ⟨freshMem, rfl⟩, h.2, fun a tv t ha => ?_⟩
  rw [hq, Timerqueue.timers_eq_some] at ha
  exact absurd ha.1 List.not_mem_nil

/-- An account survives a later clock and records that are unchanged. -/
theorem Accounted.mono {recs recs' : ℕ → Timerrec ρ} {clock clock' : Timeval} {a t : ℕ}
    {tv : Timeval} (h : Accounted recs clock a tv t) (hrecs : recs' t = recs t)
    (hclock : clock.key ≤ clock'.key) : Accounted recs' clock' a tv t := by
  obtain ⟨hc, hn, τ, hτ, hle, htv⟩ := h
  unfold Accounted
  rw [hrecs]
  exact ⟨hc, hn, τ, hτ, hle.trans hclock, htv⟩

/-- In a run, a live timer record names the cookie of its own timer, which is in the queue. -/
theorem Inv.cookie_of_live {R : TimerRun ρ} (hR : R.Inv) {t : ℕ} (ht : t ∈ R.S.live) :
    ∃ tv, R.S.queue.timers (R.S.recs t).cookie = some (tv, t) := by
  obtain ⟨a, tv, ha⟩ := mem_live.mp ht
  rw [(hR.timer a tv t ha).1]
  exact ⟨tv, ha⟩

/-- With a live timer there is a queue. -/
theorem Inv.queue_of_live {R : TimerRun ρ} {t : ℕ} (ht : t ∈ R.S.live) :
    ∃ Q, R.S.Q = some Q ∧ R.S.queue = Q := by
  rcases hQ : R.S.Q with _ | Q
  · rw [EventsTimer.live, EventsTimer.queue, hQ] at ht
    exact absurd ht List.not_mem_nil
  · exact ⟨Q, rfl, by rw [EventsTimer.queue, hQ]⟩

/-! ## Each call -/

variable {R : TimerRun ρ}

/-- `events_timer_reset` asks for a deadline no earlier than the timer's: the deadline is the
timeout added to an earlier reading of a clock that never goes back. -/
theorem Inv.reset_le (hR : R.Inv) {t : ℕ} (ht : t ∈ R.S.live) {tnow : Timeval}
    (hnow : tnow.Normal) (hclock : R.clock.key ≤ tnow.key) :
    (R.S.queue.mem (R.S.recs t).cookie).tv.key ≤ (gettimeout tnow (R.S.recs t).tvOrig).key := by
  obtain ⟨tv, hc⟩ := hR.cookie_of_live ht
  obtain ⟨-, hn, τ, hτ, hle, htv⟩ := hR.timer _ tv t hc
  rw [(Timerqueue.timers_eq_some.mp hc).2.1, htv]
  exact gettimeout_key_le hτ hnow hn (hle.trans hclock)

theorem Inv.register (hR : R.Inv) (r : ρ) {timeo tnow : Timeval} {t a : ℕ} (hnow : tnow.Normal)
    (hclock : R.clock.key ≤ tnow.key) (htimeo : timeo.Normal) (ht : t ∉ R.S.live)
    (ha : a ∉ R.S.queue.H.elems) :
    (⟨(eventsTimerRegister R.S r timeo tnow t a).1, tnow⟩ : TimerRun ρ).Inv := by
  have hQ := Timerqueue.reached_inv hR.reached
  have htimers := (hQ.add ha (gettimeout tnow timeo) t).2
  refine ⟨?_, hnow, fun a' tv' t' h' => ?_⟩
  · show (eventsTimerRegister R.S r timeo tnow t a).1.queue.Reached
    rw [queue_register]
    exact hR.reached.tail ⟨_, .add _ _ _ a ha⟩
  · change (eventsTimerRegister R.S r timeo tnow t a).1.queue.timers a' = some (tv', t') at h'
    show Accounted (eventsTimerRegister R.S r timeo tnow t a).1.recs tnow a' tv' t'
    rw [queue_register, htimers] at h'
    rw [recs_register]
    by_cases ha' : a' = a
    · -- the new timer: its record is the one written, its deadline `tnow + timeo`
      rw [ha', Function.update_self, Option.some.injEq, Prod.mk.injEq] at h'
      obtain ⟨rfl, rfl⟩ := h'
      refine ⟨by rw [Function.update_self, ha'], by rwa [Function.update_self], tnow, hnow,
        le_refl _, by rw [Function.update_self]⟩
    · -- an old timer: its record is not the new one, which was not live
      rw [Function.update_of_ne ha'] at h'
      have ht' : t' ≠ t := fun h => ht (mem_live.mpr ⟨a', tv', h ▸ h'⟩)
      exact (hR.timer a' tv' t' h').mono (Function.update_of_ne ht' _ _) hclock

theorem Inv.cancel (hR : R.Inv) {t : ℕ} (ht : t ∈ R.S.live) {S' : EventsTimer ρ}
    (h : eventsTimerCancel R.S t = some S') : (⟨S', R.clock⟩ : TimerRun ρ).Inv := by
  have hQ := Timerqueue.reached_inv hR.reached
  obtain ⟨Q, hSQ, hq⟩ := Inv.queue_of_live ht
  obtain ⟨tv, hc⟩ := hR.cookie_of_live ht
  have hmem := (Timerqueue.timers_eq_some.mp hc).1
  rw [eventsTimerCancel, hSQ] at h
  obtain ⟨Q', hdel, rfl⟩ := Option.map_eq_some_iff.mp h
  rw [hq] at hQ hmem hc
  have htimers := (hQ.delete hmem hdel).2
  refine ⟨(hq ▸ hR.reached).tail ⟨_, .delete Q _ hmem Q' hdel⟩, hR.clock, fun a' tv' t' h' => ?_⟩
  change Q'.timers a' = some (tv', t') at h'
  rw [htimers] at h'
  by_cases ha' : a' = (R.S.recs t).cookie
  · rw [ha', Function.update_self] at h'
    exact absurd h' (Option.some_ne_none _).symm
  · rw [Function.update_of_ne ha'] at h'
    exact (hR.timer a' tv' t' (hq ▸ h')).mono rfl (le_refl _)

theorem Inv.reset (hR : R.Inv) {t : ℕ} (ht : t ∈ R.S.live) {tnow : Timeval} (hnow : tnow.Normal)
    (hclock : R.clock.key ≤ tnow.key) {S' : EventsTimer ρ} (h : eventsTimerReset R.S t tnow = some S') :
    (⟨S', tnow⟩ : TimerRun ρ).Inv := by
  have hQ := Timerqueue.reached_inv hR.reached
  have hle := hR.reset_le ht hnow hclock
  obtain ⟨Q, hSQ, hq⟩ := Inv.queue_of_live ht
  obtain ⟨tv, hc⟩ := hR.cookie_of_live ht
  obtain ⟨hmem, -, hptr⟩ := Timerqueue.timers_eq_some.mp hc
  obtain ⟨-, hn, -⟩ := hR.timer _ tv t hc
  rw [eventsTimerReset, hSQ, Option.some.injEq] at h
  subst h
  rw [hq] at hQ hmem hptr hle
  have htimers := (hQ.increase hmem hle).2
  refine ⟨(hq ▸ hR.reached).tail ⟨_, .increase Q _ _ hmem hle⟩, hnow, fun a' tv' t' h' => ?_⟩
  change (timerqueueIncrease Q _ _).timers a' = some (tv', t') at h'
  rw [htimers] at h'
  by_cases ha' : a' = (R.S.recs t).cookie
  · -- the timer reset: its deadline is `tnow` plus its timeout
    rw [ha', Function.update_self, Option.some.injEq, Prod.mk.injEq, hptr] at h'
    obtain ⟨rfl, rfl⟩ := h'
    exact ⟨ha'.symm, hn, tnow, hnow, le_refl _, rfl⟩
  · rw [Function.update_of_ne ha'] at h'
    exact (hR.timer a' tv' t' (hq ▸ h')).mono rfl hclock

theorem Inv.get (hR : R.Inv) {tnow : Timeval} (hnow : tnow.Normal)
    (hclock : R.clock.key ≤ tnow.key) : (⟨(eventsTimerGet R.S tnow).2, tnow⟩ : TimerRun ρ).Inv := by
  have hQ := Timerqueue.reached_inv hR.reached
  have hspec := (hQ.getptr tnow).2
  refine ⟨?_, hnow, fun a' tv' t' h' => ?_⟩
  · show (eventsTimerGet R.S tnow).2.queue.Reached
    rw [get_queue]
    exact hR.reached.tail ⟨_, .getptr _ tnow⟩
  · change (eventsTimerGet R.S tnow).2.queue.timers a' = some (tv', t') at h'
    rw [get_queue] at h'
    exact (hR.timer a' tv' t' (hspec.getptr_sub h')).mono (congrFun (get_recs R.S tnow) t') hclock

theorem Step.inv {R R' : TimerRun ρ} (hR : R.Inv) (h : Step R R') : R'.Inv := by
  cases h with
  | register r timeo tnow t a hnow hclock htimeo ht ha =>
    exact hR.register r hnow hclock htimeo ht ha
  | cancel t ht S' h => exact hR.cancel ht h
  | reset t tnow hnow hclock ht S' h => exact hR.reset ht hnow hclock h
  | get tnow hnow hclock => exact hR.get hnow hclock

theorem reached_inv {R : TimerRun ρ} (h : Reachable Init Step R) : R.Inv :=
  h.invariant (fun _ h₀ => init_inv h₀) fun _ _ hI hs => hs.inv hI

/-- Over every run of the event loop's calls with a clock that never goes back, the timer queue
is one that calls its interface allows reach, and the `timerqueue_increase` that
`events_timer_reset` makes for a live timer is such a call: the new deadline is no earlier. -/
theorem reached_reset_step {R : TimerRun ρ} (h : Reachable Init Step R) :
    R.S.queue.Reached ∧ ∀ t ∈ R.S.live, ∀ tnow : Timeval, tnow.Normal → R.clock.key ≤ tnow.key →
      Timerqueue.Step R.S.queue (.increase (R.S.recs t).cookie (gettimeout tnow (R.S.recs t).tvOrig))
        (timerqueueIncrease R.S.queue (R.S.recs t).cookie (gettimeout tnow (R.S.recs t).tvOrig)) := by
  have hR := reached_inv h
  refine ⟨hR.reached, fun t ht tnow hnow hclock => ?_⟩
  obtain ⟨tv, hc⟩ := hR.cookie_of_live ht
  exact .increase _ _ _ (Timerqueue.timers_eq_some.mp hc).1 (hR.reset_le ht hnow hclock)

/-- Over every run of the event loop's calls, `events_timer_get` returns NULL exactly when no
deadline has passed, and otherwise the event record of a timer of earliest deadline, which has
passed, and that timer is gone: it fires once. -/
theorem reached_get_earliest {R : TimerRun ρ} (h : Reachable Init Step R) (tnow : Timeval) :
    ((eventsTimerGet R.S tnow).1 = none ↔
        ∀ a tv t, R.S.queue.timers a = some (tv, t) → tnow.key < tv.key) ∧
      ∀ r, (eventsTimerGet R.S tnow).1 = some r →
        ∃ a tv t, R.S.queue.timers a = some (tv, t) ∧ (R.S.recs t).r = r ∧ tv.key ≤ tnow.key ∧
          (∀ a' tv' t', R.S.queue.timers a' = some (tv', t') → tv.key ≤ tv'.key) ∧
          t ∉ (eventsTimerGet R.S tnow).2.live := by
  have hR := reached_inv h
  have hspec := ((Timerqueue.reached_inv hR.reached).getptr tnow).2
  have hlive : ∀ t, t ∈ (eventsTimerGet R.S tnow).2.live ↔
      ∃ a tv, (timerqueueGetptr R.S.queue tnow).2.timers a = some (tv, t) := fun t => by
    rw [mem_live, get_queue]
  rw [get_fst]
  generalize (timerqueueGetptr R.S.queue tnow).1 = ret at hspec ⊢
  generalize (timerqueueGetptr R.S.queue tnow).2.timers = T' at hspec hlive
  generalize hT : R.S.queue.timers = T at hspec ⊢
  cases hspec with
  | getptr_none hlate =>
    exact ⟨⟨fun _ => hlate, fun _ => rfl⟩, fun r hr => absurd hr (Option.some_ne_none r).symm⟩
  | @getptr_some _ c tv ptr hc hle hmin =>
    refine ⟨⟨fun hr => absurd hr (Option.some_ne_none _), fun hall => ?_⟩, fun r hr => ?_⟩
    · exact absurd (hall c tv ptr hc) (not_lt.mpr hle)
    refine ⟨c, tv, ptr, hc, Option.some.inj hr, hle, hmin, fun hptr => ?_⟩
    -- a timer left with the same record would have the cookie of the one taken
    obtain ⟨a', tv', ha'⟩ := (hlive ptr).mp hptr
    have hac : a' ≠ c := fun h => by
      rw [h, Function.update_self] at ha'
      exact absurd ha' (Option.some_ne_none _).symm
    rw [Function.update_of_ne hac] at ha'
    rw [← hT] at ha' hc
    exact hac ((hR.timer a' tv' ptr ha').1.symm.trans (hR.timer c tv ptr hc).1)

/-- Over every run of the event loop's calls, `events_timer_min` returns NULL exactly when there is
no timer, and otherwise a normal wait for a timer of earliest deadline: zero if the deadline has
passed, and what takes the clock to the deadline if not. -/
theorem reached_min_wait {R : TimerRun ρ} (h : Reachable Init Step R) {tnow : Timeval}
    (hnow : tnow.Normal) :
    (eventsTimerMin R.S tnow = none ↔ ∀ a, R.S.queue.timers a = none) ∧
      ∀ d, eventsTimerMin R.S tnow = some d → d.Normal ∧
        ∃ a tv t, R.S.queue.timers a = some (tv, t) ∧
          (∀ a' tv' t', R.S.queue.timers a' = some (tv', t') → tv.key ≤ tv'.key) ∧
          if tv.key < tnow.key then d = ⟨0, 0⟩ else gettimeout tnow d = tv := by
  have hR := reached_inv h
  have hspec := (Timerqueue.reached_inv hR.reached).getmin
  rw [min_eq]
  generalize timerqueueGetmin R.S.queue = ret at hspec ⊢
  generalize hT : R.S.queue.timers = T at hspec ⊢
  cases hspec with
  | getmin_none hall =>
    exact ⟨⟨fun _ => hall, fun _ => rfl⟩, fun d hd => absurd hd (Option.some_ne_none d).symm⟩
  | @getmin_some c tv ptr hc hmin =>
    refine ⟨⟨fun hd => absurd hd (Option.some_ne_none _), fun hall => ?_⟩, fun d hd => ?_⟩
    · rw [hall c] at hc
      exact absurd hc (Option.some_ne_none _).symm
    -- the first deadline is normal: a normal reading plus a normal timeout
    obtain ⟨-, hn, τ, hτ, -, htv⟩ := hR.timer c tv ptr (hT ▸ hc)
    have hv : tv.Normal := htv ▸ gettimeout_normal hτ hn
    rw [← Option.some.inj hd]
    exact ⟨(minWait_spec hnow hv).1, c, tv, ptr, hc, hmin, (minWait_spec hnow hv).2⟩

end TimerRun

/-- The event loop before its first call: no queue, and the clock at 0. -/
def startRun : TimerRun Unit := ⟨⟨none, fun _ => ⟨(), 0, ⟨0, 0⟩⟩⟩, ⟨0, 0⟩⟩

/-- A timer of 1.5 s registered at 10 s. -/
def oneTimerRun : TimerRun Unit :=
  ⟨(eventsTimerRegister startRun.S () ⟨1, 500000⟩ ⟨10, 0⟩ 3 7).1, ⟨10, 0⟩⟩

theorem oneTimerRun_reached : Reachable TimerRun.Init TimerRun.Step oneTimerRun := by
  have hnorm : ∀ s u : ℤ, 0 ≤ u → u < 1000000 → Timeval.Normal ⟨s, u⟩ := fun _ _ h₀ h₁ => ⟨h₀, h₁⟩
  have h₀ : Reachable TimerRun.Init TimerRun.Step startRun := .init ⟨rfl, hnorm 0 0 le_rfl (by norm_num)⟩
  have hclock : startRun.clock.key ≤ Timeval.key ⟨10, 0⟩ := by
    simp [startRun, Timeval.key, Prod.Lex.toLex_le_toLex]
  exact h₀.tail (.register _ () _ _ 3 7 (hnorm 10 0 le_rfl (by norm_num)) hclock
    (hnorm 1 500000 (by norm_num) (by norm_num)) List.not_mem_nil List.not_mem_nil)

theorem oneTimerRun_reset_step :
    oneTimerRun.S.queue.Reached ∧ ∀ t ∈ oneTimerRun.S.live, ∀ tnow : Timeval, tnow.Normal →
      oneTimerRun.clock.key ≤ tnow.key →
      Timerqueue.Step oneTimerRun.S.queue
        (.increase (oneTimerRun.S.recs t).cookie (gettimeout tnow (oneTimerRun.S.recs t).tvOrig))
        (timerqueueIncrease oneTimerRun.S.queue (oneTimerRun.S.recs t).cookie
          (gettimeout tnow (oneTimerRun.S.recs t).tvOrig)) :=
  TimerRun.reached_reset_step oneTimerRun_reached

/-- The event loop before its first call, its event records numbered: no queue, and the clock at
0. -/
def idleRun : TimerRun ℕ := ⟨⟨none, fun _ => ⟨0, 0, ⟨0, 0⟩⟩⟩, ⟨0, 0⟩⟩

/-- Five timers registered at 10 s for the event records 1 to 5, with timeouts of 5 s, 3.5 s, 4 s,
1.25 s and 6 s, in the timer records 21 to 25 and the queue records 31 to 35. -/
def fiveTimersRun : TimerRun ℕ :=
  ⟨[(1, ⟨5, 0⟩), (2, ⟨3, 500000⟩), (3, ⟨4, 0⟩), (4, ⟨1, 250000⟩), (5, ⟨6, 0⟩)].foldl
    (fun S (e : ℕ × Timeval) => (eventsTimerRegister S e.1 e.2 ⟨10, 0⟩ (e.1 + 20) (e.1 + 30)).1)
    idleRun.S, ⟨10, 0⟩⟩

/-- `fiveTimersRun` after the timer of 3.5 s, at an inner position of the queue, is cancelled. -/
def cancelledRun : TimerRun ℕ := ⟨(eventsTimerCancel fiveTimersRun.S 22).getD fiveTimersRun.S, ⟨10, 0⟩⟩

/-- `cancelledRun` after `events_timer_get` at 12 s has taken the timer due at 11.25 s. -/
def firedRun : TimerRun ℕ := ⟨(eventsTimerGet cancelledRun.S ⟨12, 0⟩).2, ⟨12, 0⟩⟩

theorem eventsTimerCancel_fiveTimersRun :
    eventsTimerCancel fiveTimersRun.S 22 = some cancelledRun.S := by
  obtain ⟨S, hS⟩ := Option.isSome_iff_exists.mp
    (show (eventsTimerCancel fiveTimersRun.S 22).isSome by with_unfolding_all decide)
  rw [cancelledRun, hS, Option.getD_some]

theorem firedRun_reached : Reachable TimerRun.Init TimerRun.Step firedRun := by
  have hten : Timeval.Normal ⟨10, 0⟩ := ⟨le_rfl, by norm_num⟩
  have h₀ : Reachable TimerRun.Init TimerRun.Step idleRun := .init ⟨rfl, ⟨le_rfl, by decide⟩⟩
  have hstart : idleRun.clock.key ≤ Timeval.key ⟨10, 0⟩ := by
    simp [idleRun, Timeval.key, Prod.Lex.toLex_le_toLex]
  have h₅ : Reachable TimerRun.Init TimerRun.Step fiveTimersRun :=
    ((((h₀.tail (.register _ 1 ⟨5, 0⟩ _ 21 31 hten hstart ⟨le_rfl, by norm_num⟩
        (by with_unfolding_all decide) (by with_unfolding_all decide))).tail
      (.register _ 2 ⟨3, 500000⟩ _ 22 32 hten le_rfl ⟨by norm_num, by norm_num⟩
        (by with_unfolding_all decide) (by with_unfolding_all decide))).tail
      (.register _ 3 ⟨4, 0⟩ _ 23 33 hten le_rfl ⟨le_rfl, by norm_num⟩
        (by with_unfolding_all decide) (by with_unfolding_all decide))).tail
      (.register _ 4 ⟨1, 250000⟩ _ 24 34 hten le_rfl ⟨by norm_num, by norm_num⟩
        (by with_unfolding_all decide) (by with_unfolding_all decide))).tail
      (.register _ 5 ⟨6, 0⟩ _ 25 35 hten le_rfl ⟨le_rfl, by norm_num⟩
        (by with_unfolding_all decide) (by with_unfolding_all decide))
  have h₆ : Reachable TimerRun.Init TimerRun.Step cancelledRun :=
    h₅.tail (.cancel _ 22 (by with_unfolding_all decide) _ eventsTimerCancel_fiveTimersRun)
  exact h₆.tail (.get _ ⟨12, 0⟩ ⟨le_rfl, by norm_num⟩
    (by simp [cancelledRun, Timeval.key, Prod.Lex.toLex_le_toLex]))

/-- After the cancel and the first `events_timer_get`, the timer due at 14 s is the earliest:
at 14.5 s it fires, with its event record 3. -/
theorem firedRun_get_earliest :
    (firedRun.S.live = [23, 21, 25] ∧ (eventsTimerGet firedRun.S ⟨14, 500000⟩).1 = some 3) ∧
      ((eventsTimerGet firedRun.S ⟨14, 500000⟩).1 = none ↔
        ∀ a tv t, firedRun.S.queue.timers a = some (tv, t) → Timeval.key ⟨14, 500000⟩ < tv.key) ∧
      ∀ r, (eventsTimerGet firedRun.S ⟨14, 500000⟩).1 = some r →
        ∃ a tv t, firedRun.S.queue.timers a = some (tv, t) ∧ (firedRun.S.recs t).r = r ∧
          tv.key ≤ Timeval.key ⟨14, 500000⟩ ∧
          (∀ a' tv' t', firedRun.S.queue.timers a' = some (tv', t') → tv.key ≤ tv'.key) ∧
          t ∉ (eventsTimerGet firedRun.S ⟨14, 500000⟩).2.live :=
  ⟨by with_unfolding_all decide, TimerRun.reached_get_earliest firedRun_reached ⟨14, 500000⟩⟩

/-- At 12.75 s the wait for the deadline at 14 s is 1.25 s, a second borrowed for the
microseconds. -/
theorem firedRun_min_wait :
    eventsTimerMin firedRun.S ⟨12, 750000⟩ = some ⟨1, 250000⟩ ∧ Timeval.Normal ⟨12, 750000⟩ ∧
    ((eventsTimerMin firedRun.S ⟨12, 750000⟩ = none ↔ ∀ a, firedRun.S.queue.timers a = none) ∧
      ∀ d, eventsTimerMin firedRun.S ⟨12, 750000⟩ = some d → d.Normal ∧
        ∃ a tv t, firedRun.S.queue.timers a = some (tv, t) ∧
          (∀ a' tv' t', firedRun.S.queue.timers a' = some (tv', t') → tv.key ≤ tv'.key) ∧
          if tv.key < Timeval.key ⟨12, 750000⟩ then d = ⟨0, 0⟩ else gettimeout ⟨12, 750000⟩ d = tv) :=
  ⟨by with_unfolding_all decide, ⟨by norm_num, by norm_num⟩,
    TimerRun.reached_min_wait firedRun_reached ⟨by norm_num, by norm_num⟩⟩

end Kivaloo.Events
