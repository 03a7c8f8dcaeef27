import Mathlib
import Kivaloo.Lib.Links

/-!
# The page pool of kvlds (lib/datastruct/pool.c)

A pool holds records up to a target size.  Each record has an element with its lock count
(`wire_count`); the records whose count is 0 may be evicted, and wait in the eviction queue, a
doubly linked list threaded through their elements, in the order their counts dropped to 0.
`pool_rec_add` adds a record locked once and, if the pool is then over its size, evicts the
record at the head of the queue.

The records are values of a type `α` (their addresses), and `get_pool_elem(P, rec)` is
`elems rec`: `none` for a record whose element was never allocated or has been freed.  The lock
count is a `size_t`; it would wrap only after `2 ^ 64` locks of one record, each held by a
pointer to it, so it is a natural number here.  The pool's `offset`, which only locates the
element inside the record, is left out.

The queue pointers seen as links (`Pool.links`) make `Kivaloo.Lib.Links`, and `pool_addqueue` and
`pool_delqueue` are the push and the unlink of that library (`holds_poolAddqueue`,
`holds_poolDelqueue`).
-/

namespace Kivaloo.Datastruct

open Kivaloo.Lib

/-- `struct pool_elem`: the lock count of a record, and its neighbours in the eviction queue. -/
structure PoolElem (α : Type*) where
  wireCount : ℕ
  next : Option α
  prev : Option α

/-- `struct pool`, with the elements of the records. -/
structure Pool (α : Type*) where
  size : ℕ
  used : ℕ
  evictHead : Option α
  evictTail : Option α
  elems : α → Option (PoolElem α)

namespace Pool

variable {α : Type*} [DecidableEq α]

/-- A write to the element of a record, through `get_pool_elem`; a write through NULL or to a
freed element, which the code never makes, changes nothing. -/
def modify (P : Pool α) (rec : Option α) (f : PoolElem α → PoolElem α) : Pool α :=
  match rec with
  | none => P
  | some a => { P with elems := Function.update P.elems a ((P.elems a).map f) }

/-- The eviction queue as links: its two ends, and the queue pointers of the elements. -/
def links (P : Pool α) : Links α where
  head := P.evictHead
  tail := P.evictTail
  next a := (P.elems a).bind PoolElem.next
  prev a := (P.elems a).bind PoolElem.prev

end Pool

variable {α : Type*} [DecidableEq α]

/-- `pool_init(nrec, offset)`. -/
def poolInit (nrec : ℕ) : Pool α := ⟨nrec, 0, none, none, fun _ => none⟩

/-- `pool_addqueue(P, rec)`. -/
def poolAddqueue (P : Pool α) (rec : α) : Pool α :=
  -- no successor, and the current last record (if any) as predecessor
  let P := P.modify (some rec) fun e => { e with next := none, prev := P.evictTail }
  let P := match P.evictHead with
    | none => { P with evictHead := some rec }
    | some _ => P.modify P.evictTail fun e => { e with next := some rec }
  { P with evictTail := some rec }

/-- `pool_delqueue(P, rec)`: the only record, the head, the tail, or a record in the middle. -/
def poolDelqueue (P : Pool α) (rec : α) : Pool α :=
  let next := (P.elems rec).bind PoolElem.next
  let prev := (P.elems rec).bind PoolElem.prev
  if P.evictHead = some rec ∧ P.evictTail = some rec then
    { P with evictHead := none, evictTail := none }
  else if P.evictHead = some rec then
    { P with evictHead := next }.modify next fun e => { e with prev := none }
  else if P.evictTail = some rec then
    { P with evictTail := prev }.modify prev fun e => { e with next := none }
  else
    (P.modify next fun e => { e with prev := prev }).modify prev fun e => { e with next := next }

/-- `pool_rec_add(P, rec, evict)`: the pool, and the record evicted, if any.  `malloc` leaves
the queue pointers of the new element unset; nothing reads them before `pool_addqueue` sets
them, and the model starts them at `none`. -/
def poolRecAdd (P : Pool α) (rec : α) : Pool α × Option α :=
  let P := { P with elems := Function.update P.elems rec (some ⟨1, none, none⟩) }
  let P := { P with used := P.used + 1 }
  -- `(P->used > P->size) && (P->evict_head != NULL)`
  if P.size < P.used then
    match P.evictHead with
    | some ev =>
      let P := poolDelqueue P ev
      ({ P with elems := Function.update P.elems ev none, used := P.used - 1 }, some ev)
    | none => (P, none)
  else (P, none)

/-- `pool_rec_free(P, rec)`; the lock count of the record must be 1. -/
def poolRecFree (P : Pool α) (rec : α) : Pool α :=
  { P with elems := Function.update P.elems rec none, used := P.used - 1 }

/-- `pool_rec_lockcount(P, rec)`. -/
def poolRecLockcount (P : Pool α) (rec : α) : Option ℕ := (P.elems rec).map PoolElem.wireCount

/-- `pool_rec_lock(P, rec)`. -/
def poolRecLock (P : Pool α) (rec : α) : Pool α :=
  let P := P.modify (some rec) fun e => { e with wireCount := e.wireCount + 1 }
  if poolRecLockcount P rec = some 1 then poolDelqueue P rec else P

/-- `pool_rec_unlock(P, rec)`; the lock count of the record must be positive. -/
def poolRecUnlock (P : Pool α) (rec : α) : Pool α :=
  let P := P.modify (some rec) fun e => { e with wireCount := e.wireCount - 1 }
  if poolRecLockcount P rec = some 0 then poolAddqueue P rec else P

/-! ## Writes to the elements -/

namespace Pool

variable {P : Pool α} {f : PoolElem α → PoolElem α}

@[simp] theorem evictHead_modify (r : Option α) : (P.modify r f).evictHead = P.evictHead := by
  cases r <;> rfl
@[simp] theorem evictTail_modify (r : Option α) : (P.modify r f).evictTail = P.evictTail := by
  cases r <;> rfl
@[simp] theorem used_modify (r : Option α) : (P.modify r f).used = P.used := by
  cases r <;> rfl
@[simp] theorem size_modify (r : Option α) : (P.modify r f).size = P.size := by
  cases r <;> rfl

theorem elems_modify (b a : α) :
    (P.modify (some b) f).elems a = if a = b then (P.elems b).map f else P.elems a := by
  simp [modify, Function.update_apply]

omit [DecidableEq α] in
@[simp] theorem links_head : P.links.head = P.evictHead := rfl
omit [DecidableEq α] in
@[simp] theorem links_tail : P.links.tail = P.evictTail := rfl
omit [DecidableEq α] in
theorem links_next (a : α) : P.links.next a = (P.elems a).bind PoolElem.next := rfl
omit [DecidableEq α] in
theorem links_prev (a : α) : P.links.prev a = (P.elems a).bind PoolElem.prev := rfl

theorem links_next_modify (b a : α) :
    (P.modify (some b) f).links.next a =
      if a = b then ((P.elems b).map f).bind PoolElem.next else P.links.next a := by
  rw [links_next, elems_modify]
  split_ifs <;> rfl

theorem links_prev_modify (b a : α) :
    (P.modify (some b) f).links.prev a =
      if a = b then ((P.elems b).map f).bind PoolElem.prev else P.links.prev a := by
  rw [links_prev, elems_modify]
  split_ifs <;> rfl

/-- A write that keeps the lock count keeps every record's lock count. -/
theorem wireCount_modify (hf : ∀ e, (f e).wireCount = e.wireCount) (r : Option α) (a : α) :
    ((P.modify r f).elems a).map PoolElem.wireCount = (P.elems a).map PoolElem.wireCount := by
  cases r with
  | none => rfl
  | some b =>
    rw [elems_modify]
    split_ifs with hab
    · subst hab
      simp [Option.map_map, Function.comp_def, hf]
    · rfl

end Pool

/-- What a queue operation keeps: the size, the count of records, and each record's lock count
(so also which records the pool holds). -/
structure SameRecords (P P' : Pool α) : Prop where
  size : P'.size = P.size
  used : P'.used = P.used
  lockcount : ∀ a, poolRecLockcount P' a = poolRecLockcount P a

theorem sameRecords_poolAddqueue (P : Pool α) (x : α) : SameRecords P (poolAddqueue P x) := by
  refine ⟨?_, ?_, fun a => ?_⟩ <;> simp only [poolAddqueue] <;> split <;>
    simp [poolRecLockcount, Pool.wireCount_modify]

theorem sameRecords_poolDelqueue (P : Pool α) (x : α) : SameRecords P (poolDelqueue P x) := by
  refine ⟨?_, ?_, fun a => ?_⟩ <;> simp only [poolDelqueue] <;> split_ifs <;>
    simp [poolRecLockcount, Pool.wireCount_modify]

/-! ## The queue operations on the links -/

/-- `pool_addqueue` appends the record to the queue its links hold. -/
theorem holds_poolAddqueue {P : Pool α} {L : List α} {x : α} (h : P.links.Holds L)
    (hin : ∀ a ∈ x :: L, (P.elems a).isSome) (hx : x ∉ L) :
    (poolAddqueue P x).links.Holds (L ++ [x]) := by
  obtain ⟨ex, hex⟩ := Option.isSome_iff_exists.mp (hin x List.mem_cons_self)
  rcases List.eq_nil_or_concat L with rfl | ⟨L, t, rfl⟩
  · -- an empty queue: the record becomes its head and its tail
    have hh : P.evictHead = none := h.head
    have ht : P.evictTail = none := h.tail
    refine h.pushBack hx ?_ ?_ (by simp) (by simp) ?_ ?_ <;>
      simp [poolAddqueue, hh, ht, Pool.links_next, Pool.links_prev, Pool.elems_modify, hex]
  · -- the last record `t` points at it
    rw [List.concat_eq_append] at h hx hin ⊢
    have ht : P.evictTail = some t := by simpa using h.tail
    have htx : t ≠ x := fun e => hx (by simp [e])
    obtain ⟨et, het⟩ := Option.isSome_iff_exists.mp (hin t (by simp))
    obtain ⟨hd, hh⟩ : ∃ hd, P.evictHead = some hd := by
      cases hh : P.evictHead with
      | none => simp [← Pool.links_head, h.head] at hh
      | some hd => exact ⟨hd, rfl⟩
    refine h.pushBack hx ?_ ?_ (fun a ha => ?_) (fun a ha => ?_) ?_ ?_
    · simp [poolAddqueue, hh]
    · simp [poolAddqueue]
    · have hax : a ≠ x := fun e => hx (e ▸ ha)
      by_cases hat : a = t
      · subst hat
        simp [poolAddqueue, hh, ht, Pool.links_next, Pool.elems_modify, het, hax]
      · simp [poolAddqueue, hh, ht, Pool.links_next, Pool.elems_modify, hat, hax, Ne.symm hat]
    · have hax : a ≠ x := fun e => hx (e ▸ ha)
      by_cases hat : a = t
      · subst hat
        simp [poolAddqueue, hh, ht, Pool.links_prev, Pool.elems_modify, het, hax]
      · simp [poolAddqueue, hh, ht, Pool.links_prev, Pool.elems_modify, hat, hax]
    · simp [poolAddqueue, hh, ht, Pool.links_next, Pool.elems_modify, hex, Ne.symm htx]
    · simp [poolAddqueue, hh, ht, Pool.links_prev, Pool.elems_modify, hex, Ne.symm htx]

/-- `pool_delqueue` unlinks the record from the queue its links hold, in each of its four
cases. -/
theorem holds_poolDelqueue {P : Pool α} {L₁ L₂ : List α} {x : α} (h : P.links.Holds (L₁ ++ x :: L₂))
    (hin : ∀ a ∈ L₁ ++ x :: L₂, (P.elems a).isSome) :
    (poolDelqueue P x).links.Holds (L₁ ++ L₂) := by
  obtain ⟨hp, hn⟩ := h.split
  obtain ⟨hx, hnd⟩ := List.nodup_cons.mp (List.nodup_middle.mp h.nodup)
  obtain ⟨ex, hex⟩ := Option.isSome_iff_exists.mp (hin x (by simp))
  have hhead : P.evictHead = (L₁ ++ x :: L₂).head? := h.head
  have htail : P.evictTail = (L₁ ++ x :: L₂).getLast? := h.tail
  rw [Pool.links_prev, hex, Option.bind_some] at hp
  rw [Pool.links_next, hex, Option.bind_some] at hn
  -- the four cases of `pool_delqueue`: what stands before `x` and after it
  rcases List.eq_nil_or_concat L₁ with rfl | ⟨L₁, p, rfl⟩ <;>
    rcases L₂ with _ | ⟨b, L₂⟩
  · -- the only record
    have h1 : P.evictHead = some x ∧ P.evictTail = some x := ⟨by simpa using hhead, by simpa using htail⟩
    simp only [List.nil_append] at hp hn ⊢
    have hdel : poolDelqueue P x = { P with evictHead := none, evictTail := none } := by
      simp only [poolDelqueue, if_pos h1]
    refine h.remove ?_ ?_ (by simp) (by simp) <;> simp [hdel, h1, Pool.links_next, Pool.links_prev, hex, hp, hn]
  · -- the head
    simp only [List.nil_append] at hp hn hhead htail hin
    have hb : x ≠ b := fun e => hx (by simp [e])
    have h1 : P.evictHead = some x := by simpa using hhead
    have h2 : P.evictTail ≠ some x := by
      rw [htail, List.getLast?_cons_cons]
      exact fun e => hx (List.mem_of_mem_getLast? e)
    obtain ⟨eb, heb⟩ := Option.isSome_iff_exists.mp (hin b (by simp))
    have hdel : poolDelqueue P x =
        { P with evictHead := some b }.modify (some b) fun e => { e with prev := none } := by
      simp [poolDelqueue, h1, h2, hex, hn]
    refine h.remove ?_ ?_ (fun a ha => ?_) (fun a ha => ?_)
    · simp [hdel, h1, Pool.links_next, hex, hn]
    · simp [hdel, h2]
    · rw [hdel, Pool.links_next_modify]
      by_cases hab : a = b
      · subst hab
        simp [Pool.links_prev, Pool.links_next, hex, hp, heb]
      · simp [Pool.links_prev, Pool.links_next, hex, hp, hab]
    · rw [hdel, Pool.links_prev_modify]
      by_cases hab : a = b
      · subst hab
        simp [Pool.links_prev, Pool.links_next, hex, hp, hn, heb]
      · simp [Pool.links_prev, Pool.links_next, hex, hn, hab, Ne.symm hab]
  · -- the tail
    rw [List.concat_eq_append] at h hp hhead htail hin hx hnd ⊢
    simp only [List.append_nil] at hp hn hx hnd
    have hpx : p ≠ x := fun e => hx (by simp [e])
    have h1 : P.evictHead ≠ some x := by
      rw [hhead, List.append_assoc, List.head?_append]
      cases L₁ with
      | nil => simpa using hpx
      | cons c L₁ => simpa using fun e : c = x => hx (by simp [e])
    have h2 : P.evictTail = some x := by simpa using htail
    obtain ⟨ep, hep⟩ := Option.isSome_iff_exists.mp (hin p (by simp))
    have hdel : poolDelqueue P x =
        { P with evictTail := some p }.modify (some p) fun e => { e with next := none } := by
      simp [poolDelqueue, h1, h2, hex, hp]
    refine h.remove ?_ ?_ (fun a ha => ?_) (fun a ha => ?_)
    · simp [hdel, h1]
    · simp [hdel, h2, Pool.links_prev, hex, hp]
    · rw [hdel, Pool.links_next_modify]
      by_cases hap : a = p
      · subst hap
        simp [Pool.links_prev, Pool.links_next, hex, hp, hn, hep]
      · simp [Pool.links_prev, Pool.links_next, hex, hp, hap, Ne.symm hap]
    · rw [hdel, Pool.links_prev_modify]
      by_cases hap : a = p
      · subst hap
        simp [Pool.links_prev, Pool.links_next, hex, hn, hep]
      · simp [Pool.links_prev, Pool.links_next, hex, hn, hap]
  · -- a record in the middle
    rw [List.concat_eq_append] at h hp hhead htail hin hx hnd ⊢
    have hpx : p ≠ x := fun e => hx (by simp [e])
    have hbx : b ≠ x := fun e => hx (by simp [e])
    have hpb : p ≠ b := fun e => by simp [e, List.nodup_append] at hnd
    have h1 : P.evictHead ≠ some x := by
      rw [hhead, List.append_assoc, List.head?_append]
      cases L₁ with
      | nil => simpa using hpx
      | cons c L₁ => simpa using fun e : c = x => hx (by simp [e])
    have h2 : P.evictTail ≠ some x := by
      rw [htail, List.getLast?_append_of_ne_nil _ (List.cons_ne_nil _ _), List.getLast?_cons_cons]
      exact fun e => hx (List.mem_append_right _ (List.mem_of_mem_getLast? e))
    obtain ⟨ep, hep⟩ := Option.isSome_iff_exists.mp (hin p (by simp))
    obtain ⟨eb, heb⟩ := Option.isSome_iff_exists.mp (hin b (by simp))
    have hdel : poolDelqueue P x =
        (P.modify (some b) fun e => { e with prev := some p }).modify (some p)
          fun e => { e with next := some b } := by
      simp [poolDelqueue, h1, h2, hex, hp, hn]
    refine h.remove ?_ ?_ (fun a ha => ?_) (fun a ha => ?_)
    · simp [hdel, h1]
    · simp [hdel, h2]
    · rw [hdel, Pool.links_next_modify, Pool.links_next_modify]
      by_cases hap : a = p
      · subst hap
        simp [Pool.links_prev, Pool.links_next, Pool.elems_modify, hex, hp, hn, hep, hpb]
      · by_cases hab : a = b
        · subst hab
          simp [Pool.links_prev, Pool.links_next, hex, hp, heb, hap, Ne.symm hap]
        · simp [Pool.links_prev, Pool.links_next, hex, hp, hap, hab, Ne.symm hap]
    · rw [hdel, Pool.links_prev_modify, Pool.links_prev_modify]
      by_cases hap : a = p
      · subst hap
        simp [Pool.links_prev, Pool.links_next, Pool.elems_modify, hex, hn, hep, hpb, Ne.symm hpb]
      · by_cases hab : a = b
        · subst hab
          simp [Pool.links_prev, Pool.links_next, hex, hp, hn, heb, hap]
        · simp [Pool.links_prev, Pool.links_next, hex, hn, hap, hab, Ne.symm hab]
end Kivaloo.Datastruct
