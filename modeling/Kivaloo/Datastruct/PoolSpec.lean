import Mathlib
import Kivaloo.Datastruct.Pool

/-!
# The eviction queue of the page pool over every run

A run is a sequence of calls of `pool_rec_add`, `pool_rec_lock`, `pool_rec_unlock` and
`pool_rec_free`, each under its documented precondition.  Beside the pool the run keeps the
number of calls made and, for each record, the call at which its lock count last dropped to 0:
this is the order the eviction queue is meant to keep.

`PoolRun.Inv` says what holds after every run (`PoolRun.Reachable.queue_lru`): the queue pointers
hold a list of the records with lock count 0, each once, in the order their counts dropped to 0,
and `used` counts the records in the pool.  Each call keeps it (`Inv.add`, `Inv.lock`,
`Inv.unlock`, `Inv.free`), through the push and the unlink of `Kivaloo.Lib.Links`.  So
`pool_rec_add` evicts exactly when the pool goes over its size with a record unlocked, and then
the record unlocked longest ago, which holds no lock (`PoolRun.Reachable.poolRecAdd_evicts`).
-/

namespace Kivaloo.Datastruct

open Kivaloo.Lib

variable {α : Type*} [DecidableEq α]

/-- A call on the pool. -/
inductive PoolCall (α : Type*)
  | add (rec : α)
  | lock (rec : α)
  | unlock (rec : α)
  | free (rec : α)

namespace PoolCall

/-- What the call does to the pool; `pool_rec_add` also returns the record it evicts. -/
def run (P : Pool α) : PoolCall α → Pool α
  | .add rec => (poolRecAdd P rec).1
  | .lock rec => poolRecLock P rec
  | .unlock rec => poolRecUnlock P rec
  | .free rec => poolRecFree P rec

/-- The documented preconditions: a record is added when it is not in the pool, and is locked,
unlocked or freed while it is; it is unlocked with a positive lock count, and freed with lock
count 1. -/
def Pre (P : Pool α) : PoolCall α → Prop
  | .add rec => poolRecLockcount P rec = none
  | .lock rec => (poolRecLockcount P rec).isSome
  | .unlock rec => ∃ n, poolRecLockcount P rec = some (n + 1)
  | .free rec => poolRecLockcount P rec = some 1

end PoolCall

/-- A pool after a run of calls, with what the order of its queue is about: the number of calls
made, and for each record the call at which its lock count last dropped to 0. -/
structure PoolRun (α : Type*) where
  pool : Pool α
  clock : ℕ
  dropped : α → ℕ

namespace PoolRun

/-- One more call. -/
def call (H : PoolRun α) (c : PoolCall α) : PoolRun α where
  pool := c.run H.pool
  clock := H.clock + 1
  dropped := match c with
    | .unlock rec =>
      if poolRecLockcount H.pool rec = some 1 then Function.update H.dropped rec H.clock
      else H.dropped
    | _ => H.dropped

/-- A new pool, `pool_init(nrec, offset)`, before any call. -/
def init (nrec : ℕ) : PoolRun α := ⟨poolInit nrec, 0, fun _ => 0⟩

/-- The runs from `pool_init(nrec, offset)` whose calls keep their preconditions. -/
inductive Reachable (nrec : ℕ) : PoolRun α → Prop
  | init : Reachable nrec (init nrec)
  | call {H : PoolRun α} {c : PoolCall α} : Reachable nrec H → c.Pre H.pool →
      Reachable nrec (H.call c)

/-- The invariant of the pool, with its queue `L` and its records `R`: the queue pointers hold
`L`; `L` lists the records with lock count 0, in the order their counts dropped to 0, each
before now; and `used` counts the records. -/
structure Inv (H : PoolRun α) (L : List α) (R : Finset α) : Prop where
  links : H.pool.links.Holds L
  queue : ∀ a, a ∈ L ↔ poolRecLockcount H.pool a = some 0
  lru : L.Pairwise fun a b => H.dropped a < H.dropped b
  past : ∀ a ∈ L, H.dropped a < H.clock
  recs : ∀ a, a ∈ R ↔ (poolRecLockcount H.pool a).isSome
  used : H.pool.used = R.card

end PoolRun

/-! ## Lock counts and links after a write -/

section Writes

variable {P : Pool α} {L : List α}

theorem lockcount_update (b : α) (v : Option (PoolElem α)) (a : α) :
    poolRecLockcount { P with elems := Function.update P.elems b v } a =
      if a = b then v.map PoolElem.wireCount else poolRecLockcount P a := by
  simp only [poolRecLockcount, Function.update_apply]
  split_ifs <;> rfl

theorem lockcount_modify_count (g : ℕ → ℕ) (b a : α) :
    poolRecLockcount (P.modify (some b) fun e => { e with wireCount := g e.wireCount }) a =
      if a = b then (poolRecLockcount P b).map g else poolRecLockcount P a := by
  rw [poolRecLockcount, Pool.elems_modify]
  split_ifs with hab
  · subst hab
    simp [poolRecLockcount, Option.map_map, Function.comp_def]
  · rfl

/-- A change of the lock count keeps the queue pointers. -/
theorem links_modify_count (g : ℕ → ℕ) (r : Option α) :
    (P.modify r fun e => { e with wireCount := g e.wireCount }).links = P.links := by
  cases r with
  | none => rfl
  | some b =>
    have hnext : ∀ a, (P.modify (some b) fun e => { e with wireCount := g e.wireCount }).links.next a
        = P.links.next a := by
      intro a
      rw [Pool.links_next_modify]
      split_ifs with hab
      · subst hab
        rw [Pool.links_next]
        cases P.elems a <;> rfl
      · rfl
    have hprev : ∀ a, (P.modify (some b) fun e => { e with wireCount := g e.wireCount }).links.prev a
        = P.links.prev a := by
      intro a
      rw [Pool.links_prev_modify]
      split_ifs with hab
      · subst hab
        rw [Pool.links_prev]
        cases P.elems a <;> rfl
      · rfl
    simp only [Pool.links, Pool.evictHead_modify, Pool.evictTail_modify, Links.mk.injEq, true_and]
    exact ⟨funext hnext, funext hprev⟩

omit [DecidableEq α] in
/-- The queue survives a change that keeps its ends and the elements of its records. -/
theorem holds_of_elems_eq {P' : Pool α} (h : P.links.Holds L)
    (hhead : P'.evictHead = P.evictHead) (htail : P'.evictTail = P.evictTail)
    (helems : ∀ a ∈ L, P'.elems a = P.elems a) : P'.links.Holds L :=
  h.congr hhead htail (fun a ha => by rw [Pool.links_next, Pool.links_next, helems a ha])
    (fun a ha => by rw [Pool.links_prev, Pool.links_prev, helems a ha])

end Writes

/-! ## One call -/

namespace PoolRun

variable {H : PoolRun α} {L : List α} {R : Finset α} {rec : α}

@[simp] theorem call_pool (c : PoolCall α) : (H.call c).pool = c.run H.pool := rfl
@[simp] theorem call_clock (c : PoolCall α) : (H.call c).clock = H.clock + 1 := rfl

omit [DecidableEq α] in
theorem Inv.not_mem (h : H.Inv L R) {n : ℕ} (hn : poolRecLockcount H.pool rec = some (n + 1)) :
    rec ∉ L := fun hr => by simp [(h.queue rec).mp hr] at hn

omit [DecidableEq α] in
theorem Inv.isSome (h : H.Inv L R) {a : α} (ha : a ∈ L) : (H.pool.elems a).isSome := by
  have := (h.queue a).mp ha
  simp only [poolRecLockcount, Option.map_eq_some_iff] at this
  obtain ⟨e, he, -⟩ := this
  simp [he]

/-- `pool_rec_free` drops a record locked once, which is not in the queue. -/
theorem Inv.free (h : H.Inv L R) (hpre : poolRecLockcount H.pool rec = some 1) :
    (H.call (.free rec)).Inv L (R.erase rec) := by
  have hrec : rec ∉ L := h.not_mem hpre
  have hlc : ∀ a, poolRecLockcount (poolRecFree H.pool rec) a =
      if a = rec then none else poolRecLockcount H.pool a := fun a => lockcount_update rec none a
  refine ⟨?_, fun a => ?_, h.lru, fun a ha => Nat.lt_succ_of_lt (h.past a ha), fun a => ?_, ?_⟩
  · exact holds_of_elems_eq h.links rfl rfl fun a ha =>
      Function.update_of_ne (fun e : a = rec => hrec (e ▸ ha)) _ _
  · simp only [call_pool, PoolCall.run, hlc]
    split_ifs with har
    · subst har
      simp [hrec]
    · exact h.queue a
  · simp only [call_pool, PoolCall.run, hlc, Finset.mem_erase, h.recs a]
    split_ifs with har <;> simp [har]
  · have hR : rec ∈ R := (h.recs rec).mpr (by simp [hpre])
    simp only [call_pool, PoolCall.run, poolRecFree]
    rw [h.used, Finset.card_erase_of_mem hR]

omit [DecidableEq α] in
theorem isSome_elems (P : Pool α) (a : α) :
    (P.elems a).isSome = (poolRecLockcount P a).isSome := by
  simp [poolRecLockcount]

/-- `pool_rec_lock` takes a record whose count was 0 out of the queue. -/
theorem Inv.lock (h : H.Inv L R) (hpre : (poolRecLockcount H.pool rec).isSome) :
    ∃ L', (H.call (.lock rec)).Inv L' R := by
  obtain ⟨n, hn⟩ := Option.isSome_iff_exists.mp hpre
  set P₁ := H.pool.modify (some rec) fun e => { e with wireCount := e.wireCount + 1 } with hP₁
  have hlc₁ : ∀ a, poolRecLockcount P₁ a =
      if a = rec then some (n + 1) else poolRecLockcount H.pool a := by
    intro a
    rw [hP₁, lockcount_modify_count (· + 1), hn, Option.map_some]
  have hlinks₁ : P₁.links = H.pool.links := links_modify_count _ _
  have hlock : poolRecLock H.pool rec = if n = 0 then poolDelqueue P₁ rec else P₁ := by
    simp only [poolRecLock, ← hP₁, hlc₁, if_true, Option.some.injEq, Nat.add_eq_right]
  rcases Nat.eq_zero_or_pos n with rfl | hpos
  · -- the record was in the queue: it leaves it
    obtain ⟨L₁, L₂, rfl⟩ := List.append_of_mem ((h.queue rec).mpr hn)
    have hnd := List.nodup_cons.mp (List.nodup_middle.mp h.links.nodup)
    have hsame := sameRecords_poolDelqueue P₁ rec
    have hlc : ∀ a, poolRecLockcount (H.call (.lock rec)).pool a =
        if a = rec then some 1 else poolRecLockcount H.pool a := by
      intro a
      simp only [call_pool, PoolCall.run, hlock, if_true, hsame.lockcount, hlc₁]
    refine ⟨L₁ ++ L₂, ?_, fun a => ?_, ?_, fun a ha => ?_, fun a => ?_, ?_⟩
    · simp only [call_pool, PoolCall.run, hlock, if_true]
      refine holds_poolDelqueue (hlinks₁ ▸ h.links) fun a ha => ?_
      rw [isSome_elems, hlc₁]
      split_ifs
      · rfl
      · rw [← isSome_elems]
        exact h.isSome ha
    · rw [hlc]
      split_ifs with har
      · subst har
        simp [hnd.1]
      · rw [← h.queue a]
        simp [har]
    · exact h.lru.sublist ((List.sublist_cons_self rec L₂).append_left L₁)
    · exact Nat.lt_succ_of_lt (h.past a (by simp at ha ⊢; tauto))
    · rw [h.recs, hlc]
      split_ifs with har
      · subst har
        simp [hn]
      · rfl
    · simp only [call_pool, PoolCall.run, hlock, if_true]
      rw [hsame.used, hP₁, Pool.used_modify]
      exact h.used
  · -- the record was locked: only its count changes
    have hrec : rec ∉ L := h.not_mem (n := n - 1) (by rw [hn, Nat.sub_add_cancel hpos])
    have hpool : (H.call (.lock rec)).pool = P₁ := by
      simp only [call_pool, PoolCall.run, hlock, if_neg (Nat.pos_iff_ne_zero.mp hpos)]
    refine ⟨L, ?_, fun a => ?_, h.lru, fun a ha => Nat.lt_succ_of_lt (h.past a ha), fun a => ?_, ?_⟩
    · rw [hpool, hlinks₁]
      exact h.links
    · rw [hpool, hlc₁]
      split_ifs with har
      · subst har
        simp [hrec]
      · exact h.queue a
    · rw [hpool, hlc₁, h.recs]
      split_ifs with har
      · subst har
        simp [hn]
      · rfl
    · rw [hpool, hP₁, Pool.used_modify]
      exact h.used

/-- `pool_rec_unlock` puts a record whose count drops to 0 at the tail of the queue, stamped with
the time. -/
theorem Inv.unlock (h : H.Inv L R) (hpre : ∃ n, poolRecLockcount H.pool rec = some (n + 1)) :
    ∃ L', (H.call (.unlock rec)).Inv L' R := by
  obtain ⟨n, hn⟩ := hpre
  have hrec : rec ∉ L := h.not_mem hn
  set P₁ := H.pool.modify (some rec) fun e => { e with wireCount := e.wireCount - 1 } with hP₁
  have hlc₁ : ∀ a, poolRecLockcount P₁ a =
      if a = rec then some n else poolRecLockcount H.pool a := by
    intro a
    rw [hP₁, lockcount_modify_count (· - 1), hn, Option.map_some, Nat.add_sub_cancel]
  have hlinks₁ : P₁.links = H.pool.links := links_modify_count (· - 1) _
  have hunlock : poolRecUnlock H.pool rec = if n = 0 then poolAddqueue P₁ rec else P₁ := by
    simp only [poolRecUnlock, ← hP₁, hlc₁, if_true, Option.some.injEq]
  have hdropped : (H.call (.unlock rec)).dropped =
      if n = 0 then Function.update H.dropped rec H.clock else H.dropped := by
    simp only [call, hn, Option.some.injEq, Nat.add_eq_right]
  rcases Nat.eq_zero_or_pos n with rfl | hpos
  · -- the count drops to 0: the record joins the queue at its tail
    have hsame := sameRecords_poolAddqueue P₁ rec
    have hlc : ∀ a, poolRecLockcount (H.call (.unlock rec)).pool a =
        if a = rec then some 0 else poolRecLockcount H.pool a := by
      intro a
      simp only [call_pool, PoolCall.run, hunlock, if_true, hsame.lockcount, hlc₁]
    have hdrop : ∀ a, (H.call (.unlock rec)).dropped a =
        if a = rec then H.clock else H.dropped a := by
      intro a
      rw [hdropped, if_pos rfl, Function.update_apply]
    have hne : ∀ a ∈ L, a ≠ rec := fun a ha e => hrec (e ▸ ha)
    refine ⟨L ++ [rec], ?_, fun a => ?_, ?_, fun a ha => ?_, fun a => ?_, ?_⟩
    · simp only [call_pool, PoolCall.run, hunlock, if_true]
      refine holds_poolAddqueue (hlinks₁ ▸ h.links) (fun a ha => ?_) hrec
      rw [isSome_elems, hlc₁]
      split_ifs with har
      · rfl
      · rw [← isSome_elems]
        exact h.isSome (List.mem_of_ne_of_mem har ha)
    · rw [hlc]
      split_ifs with har
      · subst har
        simp
      · simp [har, h.queue a]
    · -- everything in the queue dropped to 0 before now
      refine List.pairwise_append.mpr ⟨?_, List.pairwise_singleton _ _, ?_⟩
      · refine h.lru.imp_of_mem fun ha hb hab => ?_
        rw [hdrop, hdrop, if_neg (hne _ ha), if_neg (hne _ hb)]
        exact hab
      · intro a ha b hb
        obtain rfl : b = rec := by simpa using hb
        rw [hdrop, hdrop, if_neg (hne a ha), if_pos rfl]
        exact h.past a ha
    · rw [hdrop, call_clock]
      split_ifs with har
      · exact Nat.lt_succ_self _
      · exact Nat.lt_succ_of_lt (h.past a (by simpa [har] using ha))
    · rw [h.recs, hlc]
      split_ifs with har
      · subst har
        simp [hn]
      · rfl
    · simp only [call_pool, PoolCall.run, hunlock, if_true]
      rw [hsame.used, hP₁, Pool.used_modify]
      exact h.used
  · -- the record stays locked: only its count changes
    have hpool : (H.call (.unlock rec)).pool = P₁ := by
      simp only [call_pool, PoolCall.run, hunlock, if_neg (Nat.pos_iff_ne_zero.mp hpos)]
    have hdrop : (H.call (.unlock rec)).dropped = H.dropped := by
      rw [hdropped, if_neg (Nat.pos_iff_ne_zero.mp hpos)]
    refine ⟨L, ?_, fun a => ?_, hdrop ▸ h.lru, fun a ha => ?_, fun a => ?_, ?_⟩
    · rw [hpool, hlinks₁]
      exact h.links
    · rw [hpool, hlc₁]
      split_ifs with har
      · subst har
        simp [hrec, Nat.pos_iff_ne_zero.mp hpos]
      · exact h.queue a
    · rw [hdrop]
      exact Nat.lt_succ_of_lt (h.past a ha)
    · rw [hpool, hlc₁, h.recs]
      split_ifs with har
      · subst har
        simp [hn]
      · rfl
    · rw [hpool, hP₁, Pool.used_modify]
      exact h.used

/-- The record `pool_rec_add` evicts: the head of the queue, when the pool goes over its size. -/
theorem poolRecAdd_snd (P : Pool α) (rec : α) :
    (poolRecAdd P rec).2 = if P.size < P.used + 1 then P.evictHead else none := by
  simp only [poolRecAdd]
  split_ifs
  · split <;> simp_all
  · rfl

/-- `pool_rec_add` adds a record locked once, and evicts the head of the queue when the pool goes
over its size. -/
theorem Inv.add (h : H.Inv L R) (hpre : poolRecLockcount H.pool rec = none) :
    ∃ L' R', (H.call (.add rec)).Inv L' R' := by
  have hrec : rec ∉ L := fun hr => by simp [(h.queue rec).mp hr] at hpre
  have hrecR : rec ∉ R := fun hr => by simpa [hpre] using (h.recs rec).mp hr
  -- the pool with the record added, before any eviction
  set E := Function.update H.pool.elems rec (some ⟨1, none, none⟩) with hE
  set P₂ : Pool α := { H.pool with elems := E, used := H.pool.used + 1 } with hP₂
  have hlc₂ : ∀ a, poolRecLockcount P₂ a = if a = rec then some 1 else poolRecLockcount H.pool a :=
    fun a => lockcount_update rec _ a
  have hlinks₂ : P₂.links.Holds L := holds_of_elems_eq h.links rfl rfl fun a ha =>
    Function.update_of_ne (fun e : a = rec => hrec (e ▸ ha)) _ _
  have hused₂ : P₂.used = (insert rec R).card := by
    rw [Finset.card_insert_of_notMem hrecR, ← h.used]
  have hqueue₂ : ∀ a, a ∈ L ↔ poolRecLockcount P₂ a = some 0 := by
    intro a
    rw [hlc₂]
    split_ifs with har
    · subst har
      simp [hrec]
    · exact h.queue a
  have hrecs₂ : ∀ a, a ∈ insert rec R ↔ (poolRecLockcount P₂ a).isSome := by
    intro a
    rw [hlc₂, Finset.mem_insert, h.recs]
    split_ifs with har <;> simp [har]
  -- without an eviction, the pool is `P₂`
  have hkeep : (H.call (.add rec)).pool = P₂ → ∃ L' R', (H.call (.add rec)).Inv L' R' := by
    intro hpool
    refine ⟨L, insert rec R, ?_, fun a => ?_, h.lru, fun a ha => Nat.lt_succ_of_lt (h.past a ha),
      fun a => ?_, ?_⟩ <;> rw [hpool]
    exacts [hlinks₂, hqueue₂ a, hrecs₂ a, hused₂]
  by_cases hover : H.pool.size < H.pool.used + 1
  · cases hh : H.pool.evictHead with
    | none =>
      exact hkeep (by simp only [call_pool, PoolCall.run, poolRecAdd, ← hE, ← hP₂]; simp [hover, hh, hP₂])
    | some ev =>
      -- the head of the queue is unlinked and its element freed
      obtain ⟨L', rfl⟩ : ∃ L', L = ev :: L' :=
        List.head?_eq_some_iff.mp (h.links.head.symm.trans hh)
      have hev : ev ∉ L' := (List.nodup_cons.mp h.links.nodup).1
      set P₃ := poolDelqueue P₂ ev with hP₃
      have hsame := sameRecords_poolDelqueue P₂ ev
      have hlinks₃ : P₃.links.Holds ([] ++ L') :=
        @holds_poolDelqueue α _ P₂ [] L' ev hlinks₂ fun a ha => by
          rw [isSome_elems, (hqueue₂ a).mp ha]
          rfl
      have hpool : (H.call (.add rec)).pool =
          { P₃ with elems := Function.update P₃.elems ev none, used := P₃.used - 1 } := by
        simp only [call_pool, PoolCall.run, poolRecAdd, ← hE, ← hP₂]
        rw [if_pos hover, hh]
      have hlc : ∀ a, poolRecLockcount (H.call (.add rec)).pool a =
          if a = ev then none else poolRecLockcount P₂ a := by
        intro a
        rw [hpool, ← hsame.lockcount a]
        exact lockcount_update ev none a
      have hevR : ev ∈ insert rec R := (hrecs₂ ev).mpr (by rw [(hqueue₂ ev).mp (by simp)]; rfl)
      refine ⟨L', (insert rec R).erase ev, ?_, fun a => ?_, h.lru.of_cons,
        fun a ha => Nat.lt_succ_of_lt (h.past a (List.mem_cons_of_mem _ ha)), fun a => ?_, ?_⟩
      · rw [hpool]
        exact holds_of_elems_eq hlinks₃ rfl rfl fun a ha =>
          Function.update_of_ne (fun e : a = ev => hev (e ▸ ha)) _ _
      · rw [hlc]
        split_ifs with hae
        · subst hae
          simp [hev]
        · rw [← hqueue₂ a]
          simp [hae]
      · rw [Finset.mem_erase, hrecs₂, hlc]
        split_ifs with hae <;> simp [hae]
      · have hused₃ : P₃.used = P₂.used := hsame.used
        rw [hpool]
        change P₃.used - 1 = _
        rw [hused₃, hused₂, Finset.card_erase_of_mem hevR]
  · exact hkeep (by simp only [call_pool, PoolCall.run, poolRecAdd, ← hE, ← hP₂]; simp [hover, hP₂])

/-! ## Every run -/

omit [DecidableEq α] in
theorem inv_init (nrec : ℕ) : (init nrec : PoolRun α).Inv [] ∅ := by
  refine ⟨Links.holds_nil rfl rfl, fun a => ?_, .nil, by simp, fun a => ?_, rfl⟩ <;>
    simp [init, poolInit, poolRecLockcount]

/-- Each call that keeps its precondition keeps the invariant, with the queue and the records it
leaves. -/
theorem Inv.call (h : H.Inv L R) {c : PoolCall α} (hc : c.Pre H.pool) :
    ∃ L' R', (H.call c).Inv L' R' := by
  cases c with
  | add rec => exact h.add hc
  | lock rec =>
    obtain ⟨L', h'⟩ := h.lock hc
    exact ⟨L', R, h'⟩
  | unlock rec =>
    obtain ⟨L', h'⟩ := h.unlock hc
    exact ⟨L', R, h'⟩
  | free rec => exact ⟨L, R.erase rec, h.free hc⟩

theorem Reachable.inv {nrec : ℕ} (hH : Reachable nrec H) : ∃ L R, H.Inv L R := by
  induction hH with
  | init => exact ⟨[], ∅, inv_init nrec⟩
  | call _ hc ih =>
    obtain ⟨L, R, h⟩ := ih
    exact h.call hc

/-- `pool_rec_add` evicts the head of the queue when the pool goes over its size. -/
theorem Inv.evict (h : H.Inv L R) (rec : α) :
    (poolRecAdd H.pool rec).2 = if H.pool.size < H.pool.used + 1 then L.head? else none := by
  have hhead : H.pool.evictHead = L.head? := h.links.head
  rw [poolRecAdd_snd, hhead]

/-- The record evicted is unlocked, and unlocked before every other unlocked record. -/
theorem Inv.evicted (h : H.Inv L R) {rec ev : α} (hev : (poolRecAdd H.pool rec).2 = some ev) :
    poolRecLockcount H.pool ev = some 0 ∧
      ∀ a, poolRecLockcount H.pool a = some 0 → a ≠ ev → H.dropped ev < H.dropped a := by
  rw [h.evict] at hev
  split_ifs at hev
  obtain ⟨L', rfl⟩ := List.head?_eq_some_iff.mp hev
  refine ⟨(h.queue ev).mp List.mem_cons_self, fun a ha hae => ?_⟩
  have haL : a ∈ L' := by simpa [hae] using (h.queue a).mpr ha
  exact List.rel_of_pairwise_cons h.lru haL

/-- Over every run whose calls keep their preconditions, the eviction queue is a well-formed
doubly linked list that holds exactly the records with lock count 0, each once, in the order
their counts dropped to 0, and `used` is the number of records in the pool. -/
theorem Reachable.queue_lru {nrec : ℕ} (hH : Reachable nrec H) :
    ∃ (L : List α) (R : Finset α), H.pool.links.Holds L ∧ (∀ a, a ∈ L ↔ poolRecLockcount H.pool a = some 0) ∧
      L.Pairwise (fun a b => H.dropped a < H.dropped b) ∧
      (∀ a, a ∈ R ↔ (poolRecLockcount H.pool a).isSome) ∧ H.pool.used = R.card := by
  obtain ⟨L, R, h⟩ := hH.inv
  exact ⟨L, R, h.links, h.queue, h.lru, h.recs, h.used⟩

/-- In every reachable state, `pool_rec_add` evicts exactly when the pool goes over its size and
some record has lock count 0, and then a record with lock count 0 whose count dropped to 0
before that of every other such record. -/
theorem Reachable.poolRecAdd_evicts {nrec : ℕ} (hH : Reachable nrec H) (rec : α) :
    ((poolRecAdd H.pool rec).2.isSome ↔
      H.pool.size < H.pool.used + 1 ∧ ∃ a, poolRecLockcount H.pool a = some 0) ∧
    ∀ ev, (poolRecAdd H.pool rec).2 = some ev → poolRecLockcount H.pool ev = some 0 ∧
      ∀ a, poolRecLockcount H.pool a = some 0 → a ≠ ev → H.dropped ev < H.dropped a := by
  obtain ⟨L, R, h⟩ := hH.inv
  refine ⟨?_, fun ev hev => h.evicted hev⟩
  rw [h.evict]
  constructor
  · intro hs
    split_ifs at hs with hover
    · obtain ⟨a, ha⟩ := Option.isSome_iff_exists.mp hs
      exact ⟨hover, a, (h.queue a).mp (List.mem_of_mem_head? ha)⟩
    · cases hs
  · rintro ⟨hover, a, ha⟩
    rw [if_pos hover]
    cases L with
    | nil => exact absurd ((h.queue a).mpr ha) List.not_mem_nil
    | cons b L => rfl

end PoolRun

/-- Two records added to a pool of size 2 and unlocked, the second first. -/
def lruRun : PoolRun ℕ :=
  ((((PoolRun.init 2).call (.add 0)).call (.add 1)).call (.unlock 1)).call (.unlock 0)

theorem lruRun_reachable : PoolRun.Reachable 2 lruRun := by
  have h₀ : PoolRun.Reachable 2 (PoolRun.init 2 : PoolRun ℕ) := .init
  have h₁ := h₀.call (c := .add 0) (by unfold PoolCall.Pre; decide)
  have h₂ := h₁.call (c := .add 1) (by unfold PoolCall.Pre; decide)
  have h₃ := h₂.call (c := .unlock 1) ⟨0, by decide⟩
  exact h₃.call (c := .unlock 0) ⟨0, by decide⟩

theorem lruRun_queue_lru :
    ∃ (L : List ℕ) (R : Finset ℕ), lruRun.pool.links.Holds L ∧
      (∀ a, a ∈ L ↔ poolRecLockcount lruRun.pool a = some 0) ∧
      L.Pairwise (fun a b => lruRun.dropped a < lruRun.dropped b) ∧
      (∀ a, a ∈ R ↔ (poolRecLockcount lruRun.pool a).isSome) ∧ lruRun.pool.used = R.card :=
  PoolRun.Reachable.queue_lru lruRun_reachable

/-- A third record overflows the pool, and one is evicted. -/
theorem lruRun_evicts : (poolRecAdd lruRun.pool 2).2.isSome :=
  ((PoolRun.Reachable.poolRecAdd_evicts lruRun_reachable 2).1).mpr ⟨by decide, 0, by decide⟩

end Kivaloo.Datastruct
