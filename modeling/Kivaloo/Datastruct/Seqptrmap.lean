import Mathlib

/-!
# Sequential pointer maps (libcperciva/datastruct/seqptrmap.c)

A `seqptrmap` numbers the pointers added to it consecutively.  It keeps them in an elastic
queue: position `k` of the queue holds the pointer for the integer `offset + k`, a deleted
pointer becomes NULL, and `seqptrmap_delete` removes the NULLs at the front of the queue,
advancing `offset`.  The model keeps the queue as a list of `Option α`, `none` for NULL; its
length is `M->len`.  The integers are natural numbers: `seqptrmap_add` asserts that
`offset + len` does not overflow `int64_t`, and a negative integer lies below every offset.

The queue never starts with a NULL, since `seqptrmap_delete` removes leading NULLs and the
callers never add a NULL pointer.  The model carries this as a field.  It is what lets
`seqptrmap_getmin` return the offset without looking at the queue.

Seen from outside, the map is a partial function from integers to pointers (`seqptrmapGet`)
with a next integer (`Seqptrmap.next`), and every integer handed out so far lies below it.  The
lemmas below describe each operation in these terms and through the list of stored pointers
(`Seqptrmap.entries`).
-/

namespace Kivaloo.Datastruct

variable {α : Type*}

/-- `struct seqptrmap`: the queue `ptrs` of `M->len` entries, entry `k` holding the pointer for
the integer `offset + k`. -/
structure Seqptrmap (α : Type*) where
  offset : ℕ
  ptrs : List (Option α)
  /-- Leading NULLs are always deleted. -/
  head_isSome : ∀ p ∈ ptrs.head?, p.isSome

namespace Seqptrmap

/-- The integer the next `seqptrmap_add` returns: `offset + len`. -/
def next (M : Seqptrmap α) : ℕ := M.offset + M.ptrs.length

/-- The pointers in the map, in the order of their integers. -/
def entries (M : Seqptrmap α) : List α := M.ptrs.filterMap id

/-- The empty map whose next integer is `n`, as deleting every pointer leaves it. -/
def emptyAt (n : ℕ) : Seqptrmap α := ⟨n, [], by simp⟩

/-- The pointer that a queue starting at the integer `offset` holds for the integer `i`. -/
def lookup (offset : ℕ) (ptrs : List (Option α)) (i : ℕ) : Option α :=
  if i < offset then none else (ptrs[i - offset]?).join

end Seqptrmap

open Seqptrmap

/-! ## The operations -/

theorem head_isSome_append {ptrs : List (Option α)} (h : ∀ p ∈ ptrs.head?, p.isSome) (ptr : α) :
    ∀ p ∈ (ptrs ++ [some ptr]).head?, p.isSome := by
  cases ptrs with
  | nil => simp
  | cons q ptrs => simpa using h

/-- `seqptrmap_init()`: an empty map, numbering from 0. -/
def seqptrmapInit : Seqptrmap α := ⟨0, [], by simp⟩

/-- `seqptrmap_add(M, ptr)`: the pointer goes to the end of the queue, and the associated
integer `offset + len - 1` is returned, with `len` already counting the new entry. -/
def seqptrmapAdd (M : Seqptrmap α) (ptr : α) : Seqptrmap α × ℕ :=
  let M' : Seqptrmap α := ⟨M.offset, M.ptrs ++ [some ptr], head_isSome_append M.head_isSome ptr⟩
  (M', M'.offset + M'.ptrs.length - 1)

/-- `seqptrmap_get(M, i)`: nothing below the offset or past the end of the queue, otherwise
the entry of the queue, NULL where the pointer was deleted. -/
def seqptrmapGet (M : Seqptrmap α) (i : ℕ) : Option α :=
  if i < M.offset then none
  else if h : M.ptrs.length ≤ i - M.offset then none
  else M.ptrs[i - M.offset]

/-- `seqptrmap_getmin(M)`: the offset, unless the queue is empty. -/
def seqptrmapGetmin (M : Seqptrmap α) : Option ℕ :=
  if M.ptrs.length = 0 then none else some M.offset

/-- The loop of `seqptrmap_delete` that removes the NULLs at the front of the queue, advancing
the offset past each. -/
def deleteLeadingNulls : ℕ → List (Option α) → ℕ × List (Option α)
  | offset, none :: ptrs => deleteLeadingNulls (offset + 1) ptrs
  | offset, ptrs => (offset, ptrs)

theorem deleteLeadingNulls_head (offset : ℕ) (ptrs : List (Option α)) :
    ∀ p ∈ (deleteLeadingNulls offset ptrs).2.head?, p.isSome := by
  induction ptrs generalizing offset with
  | nil => simp [deleteLeadingNulls]
  | cons p ptrs ih =>
    cases p with
    | none => exact ih (offset + 1)
    | some a => simp [deleteLeadingNulls]

/-- `seqptrmap_delete(M, i)`: an integer outside the queue changes nothing; otherwise its entry
becomes NULL and the leading NULLs are removed. -/
def seqptrmapDelete (M : Seqptrmap α) (i : ℕ) : Seqptrmap α :=
  if i < M.offset then M
  else if M.ptrs.length ≤ i - M.offset then M
  else
    let r := deleteLeadingNulls M.offset (M.ptrs.set (i - M.offset) none)
    ⟨r.1, r.2, deleteLeadingNulls_head _ _⟩

/-! ## Removing leading NULLs changes neither the map nor the next integer -/

section DeleteLeadingNulls

variable (offset : ℕ) (ptrs : List (Option α))

@[simp] theorem deleteLeadingNulls_none :
    deleteLeadingNulls offset (none :: ptrs) = deleteLeadingNulls (offset + 1) ptrs := rfl

theorem deleteLeadingNulls_next :
    (deleteLeadingNulls offset ptrs).1 + (deleteLeadingNulls offset ptrs).2.length =
      offset + ptrs.length := by
  induction ptrs generalizing offset with
  | nil => rfl
  | cons p ptrs ih =>
    cases p with
    | none =>
      rw [deleteLeadingNulls_none, ih, List.length_cons]
      omega
    | some a => rfl

theorem le_deleteLeadingNulls_fst : offset ≤ (deleteLeadingNulls offset ptrs).1 := by
  induction ptrs generalizing offset with
  | nil => exact le_rfl
  | cons p ptrs ih =>
    cases p with
    | none => exact (Nat.le_succ offset).trans (ih (offset + 1))
    | some a => exact le_rfl

theorem deleteLeadingNulls_length_le :
    (deleteLeadingNulls offset ptrs).2.length ≤ ptrs.length := by
  have hnext := deleteLeadingNulls_next offset ptrs
  have hle := le_deleteLeadingNulls_fst offset ptrs
  omega

@[simp] theorem deleteLeadingNulls_entries :
    (deleteLeadingNulls offset ptrs).2.filterMap id = ptrs.filterMap id := by
  induction ptrs generalizing offset with
  | nil => rfl
  | cons p ptrs ih =>
    cases p with
    | none => simpa using ih (offset + 1)
    | some a => rfl

/-- A NULL at the front holds nothing: dropping it and advancing the offset keeps the map. -/
theorem lookup_cons_none : lookup (offset + 1) ptrs = lookup offset (none :: ptrs) := by
  funext i
  unfold lookup
  rcases lt_trichotomy i offset with h | rfl | h
  · simp [h, Nat.lt_succ_of_lt h]
  · simp
  · have hsub : i - offset = i - (offset + 1) + 1 := by omega
    simp [hsub, Nat.not_lt_of_gt h, show ¬i < offset + 1 by omega]

theorem lookup_deleteLeadingNulls :
    lookup (deleteLeadingNulls offset ptrs).1 (deleteLeadingNulls offset ptrs).2 =
      lookup offset ptrs := by
  induction ptrs generalizing offset with
  | nil => rfl
  | cons p ptrs ih =>
    cases p with
    | none => rw [deleteLeadingNulls_none, ih, lookup_cons_none]
    | some a => rfl

end DeleteLeadingNulls

/-! ## The map and its next integer -/

section Spec

variable {M : Seqptrmap α} {i j : ℕ} {ptr : α}

theorem seqptrmapGet_eq_lookup (M : Seqptrmap α) (i : ℕ) :
    seqptrmapGet M i = lookup M.offset M.ptrs i := by
  unfold seqptrmapGet lookup
  split_ifs with h₁ h₂
  · rfl
  · rw [List.getElem?_eq_none h₂, Option.join_none]
  · rw [List.getElem?_eq_getElem (by omega), Option.join_some]

theorem seqptrmapGet_eq_none_of_next_le (h : M.next ≤ i) : seqptrmapGet M i = none := by
  unfold seqptrmapGet next at *
  split_ifs <;> first | rfl | omega

@[simp] theorem seqptrmapGet_init (i : ℕ) : seqptrmapGet (seqptrmapInit : Seqptrmap α) i = none :=
  seqptrmapGet_eq_none_of_next_le (Nat.zero_le _)

@[simp] theorem seqptrmapGet_emptyAt (n i : ℕ) : seqptrmapGet (emptyAt n : Seqptrmap α) i = none := by
  simp [seqptrmapGet, emptyAt]

@[simp] theorem next_init : (seqptrmapInit : Seqptrmap α).next = 0 := rfl

@[simp] theorem next_emptyAt (n : ℕ) : (emptyAt n : Seqptrmap α).next = n := rfl

@[simp] theorem entries_emptyAt (n : ℕ) : (emptyAt n : Seqptrmap α).entries = [] := rfl

@[simp] theorem entries_init : (seqptrmapInit : Seqptrmap α).entries = [] := rfl

/-- `seqptrmap_add` hands out the next integer. -/
@[simp] theorem seqptrmapAdd_snd (M : Seqptrmap α) (ptr : α) : (seqptrmapAdd M ptr).2 = M.next := by
  simp [seqptrmapAdd, next]

@[simp] theorem next_seqptrmapAdd (M : Seqptrmap α) (ptr : α) :
    (seqptrmapAdd M ptr).1.next = M.next + 1 := by
  simp [seqptrmapAdd, next]
  omega

@[simp] theorem entries_seqptrmapAdd (M : Seqptrmap α) (ptr : α) :
    (seqptrmapAdd M ptr).1.entries = M.entries ++ [ptr] := by
  simp [seqptrmapAdd, entries]

/-- After `seqptrmap_add` the new integer holds the pointer and every other keeps its own. -/
theorem seqptrmapGet_add (M : Seqptrmap α) (ptr : α) (i : ℕ) :
    seqptrmapGet (seqptrmapAdd M ptr).1 i = if i = M.next then some ptr else seqptrmapGet M i := by
  simp only [seqptrmapGet_eq_lookup, seqptrmapAdd, lookup, next]
  split_ifs with h₁ h₂ h₂
  · omega
  · rfl
  · rw [List.getElem?_append_right (by omega)]
    simp [h₂]
  · by_cases h₃ : i - M.offset < M.ptrs.length
    · rw [List.getElem?_append_left h₃]
    · have hpast : M.ptrs.length + 1 ≤ i - M.offset := by omega
      rw [List.getElem?_eq_none (by simpa using hpast), List.getElem?_eq_none (by omega)]

/-- `seqptrmap_delete` never changes the next integer. -/
@[simp] theorem next_seqptrmapDelete (M : Seqptrmap α) (i : ℕ) :
    (seqptrmapDelete M i).next = M.next := by
  unfold seqptrmapDelete
  split_ifs
  · rfl
  · rfl
  · simp only [next]
    rw [deleteLeadingNulls_next, List.length_set]

/-- Making the entry for `i` NULL deletes the pointer for `i` and keeps every other. -/
theorem lookup_set_none (M : Seqptrmap α) (h : M.offset ≤ i) (j : ℕ) :
    lookup M.offset (M.ptrs.set (i - M.offset) none) j =
      if j = i then none else lookup M.offset M.ptrs j := by
  unfold lookup
  by_cases hj : j < M.offset
  · have hji : j ≠ i := by omega
    rw [if_pos hj, if_neg hji, if_pos hj]
  · rw [if_neg hj, List.getElem?_set]
    by_cases hji : j = i
    · subst hji
      rw [if_pos rfl, if_pos rfl]
      split_ifs <;> rfl
    · have hk : i - M.offset ≠ j - M.offset := by omega
      rw [if_neg hk, if_neg hji, if_neg hj]

/-- After `seqptrmap_delete` the integer holds nothing and every other keeps its pointer. -/
theorem seqptrmapGet_delete (M : Seqptrmap α) (i j : ℕ) :
    seqptrmapGet (seqptrmapDelete M i) j = if j = i then none else seqptrmapGet M j := by
  by_cases hin : M.offset ≤ i ∧ i - M.offset < M.ptrs.length
  · simp only [seqptrmapDelete, if_neg (Nat.not_lt.mpr hin.1), if_neg (Nat.not_le.mpr hin.2),
      seqptrmapGet_eq_lookup, lookup_deleteLeadingNulls, lookup_set_none M hin.1]
  · -- an integer outside the queue holds nothing, and deleting it changes nothing
    have hdel : seqptrmapDelete M i = M := by
      unfold seqptrmapDelete
      split_ifs <;> first | rfl | omega
    have hget : seqptrmapGet M i = none := by
      unfold seqptrmapGet
      split_ifs <;> first | rfl | omega
    rw [hdel]
    split_ifs with hji
    · rw [hji, hget]
    · rfl

/-- Making an entry NULL takes its pointer out of the stored pointers. -/
theorem filterMap_set_none {ptrs : List (Option α)} {k : ℕ} (h : ptrs[k]? = some (some ptr)) :
    (ptrs.filterMap id).Perm (ptr :: (ptrs.set k none).filterMap id) := by
  induction ptrs generalizing k with
  | nil => simp at h
  | cons p ptrs ih =>
    cases k with
    | zero =>
      simp only [List.getElem?_cons_zero, Option.some.injEq] at h
      subst h
      simp
    | succ k =>
      simp only [List.getElem?_cons_succ] at h
      cases p with
      | none => simpa using ih h
      | some a =>
        simp only [List.set_cons_succ, List.filterMap_cons, id]
        exact ((ih h).cons a).trans (List.Perm.swap ptr a _)

/-- `seqptrmap_delete` of an integer with a pointer takes exactly that pointer out. -/
theorem entries_seqptrmapDelete (h : seqptrmapGet M i = some ptr) :
    M.entries.Perm (ptr :: (seqptrmapDelete M i).entries) := by
  have hget := h
  unfold seqptrmapGet at hget
  split_ifs at hget with h₁ h₂
  have hk : M.ptrs[i - M.offset]? = some (some ptr) := by
    rw [List.getElem?_eq_getElem (by omega), hget]
  simp only [seqptrmapDelete, if_neg h₁, if_neg h₂, entries, deleteLeadingNulls_entries]
  exact filterMap_set_none hk

theorem mem_entries_iff : ptr ∈ M.entries ↔ ∃ i, seqptrmapGet M i = some ptr := by
  simp only [entries, List.mem_filterMap, id, seqptrmapGet_eq_lookup, lookup]
  constructor
  · rintro ⟨p, hp, rfl⟩
    obtain ⟨k, hk, hkp⟩ := List.getElem_of_mem hp
    refine ⟨M.offset + k, ?_⟩
    simp [List.getElem?_eq_getElem hk, hkp]
  · rintro ⟨i, hi⟩
    split_ifs at hi
    cases hk : M.ptrs[i - M.offset]? with
    | none => simp [hk] at hi
    | some p =>
      rw [hk, Option.join_some] at hi
      exact ⟨p, List.mem_of_getElem? hk, hi⟩

theorem seqptrmapGetmin_eq_none_iff : seqptrmapGetmin M = none ↔ M.ptrs = [] := by
  simp [seqptrmapGetmin]

/-- The least integer of a non-empty map holds a pointer, since the queue never starts with
NULL: the `assert(R != NULL)` of its callers. -/
theorem seqptrmapGet_getmin (h : seqptrmapGetmin M = some i) : ∃ ptr, seqptrmapGet M i = some ptr := by
  obtain ⟨offset, ptrs, hhead⟩ := M
  simp only [seqptrmapGetmin] at h
  split_ifs at h with hlen
  cases h
  cases ptrs with
  | nil => simp at hlen
  | cons p ptrs =>
    obtain ⟨ptr, rfl⟩ := Option.isSome_iff_exists.mp (hhead p rfl)
    exact ⟨ptr, by simp [seqptrmapGet]⟩

/-- Deleting the least integer takes the first stored pointer off the front. -/
theorem entries_delete_getmin (h : seqptrmapGetmin M = some i) (hget : seqptrmapGet M i = some ptr) :
    M.entries = ptr :: (seqptrmapDelete M i).entries := by
  obtain ⟨offset, ptrs, hhead⟩ := M
  simp only [seqptrmapGetmin] at h
  split_ifs at h with hlen
  cases h
  cases ptrs with
  | nil => simp at hlen
  | cons p ptrs =>
    simp only [seqptrmapGet, lt_irrefl, if_false, Nat.sub_self, List.length_cons] at hget
    simp only [dif_neg (by omega : ¬(ptrs.length + 1 ≤ 0)), List.getElem_cons_zero] at hget
    subst hget
    simp [seqptrmapDelete, entries]
    exact (deleteLeadingNulls_entries _ _).symm

theorem length_delete_getmin (h : seqptrmapGetmin M = some i) :
    (seqptrmapDelete M i).ptrs.length < M.ptrs.length := by
  obtain ⟨offset, ptrs, hhead⟩ := M
  simp only [seqptrmapGetmin] at h
  split_ifs at h with hlen
  cases h
  cases ptrs with
  | nil => simp at hlen
  | cons p ptrs =>
    simp only [seqptrmapDelete, lt_irrefl, if_false, Nat.sub_self, List.length_cons,
      show ¬(ptrs.length + 1 ≤ 0) by omega, List.set_cons_zero, deleteLeadingNulls_none]
    exact Nat.lt_succ_of_le (deleteLeadingNulls_length_le _ _)

end Spec

end Kivaloo.Datastruct
