import Mathlib

/-!
# Association lists with distinct keys

A finite map kept as a list of key-value pairs with distinct keys, read by `List.lookup`.  With
distinct keys a lookup is membership (`lookup_eq_some_iff_mem`); setting the value at one
position changes the lookup of that position's key only (`lookup_modify`); and a lookup in a
list of lists, when only one of them can hold the key, is a lookup in that one
(`lookup_flatten`).

Sorting such a list by a comparison that agrees with an order on the elements at hand sorts it
by that order (`insertionSort_congr`), even where the comparison is no order on the whole type.
-/

namespace Kivaloo.Lib

open List

section Lookup

variable {α β : Type*} [BEq α] [LawfulBEq α]

theorem lookup_eq_none_of_not_mem {l : List (α × β)} {k : α} (h : k ∉ l.map Prod.fst) :
    l.lookup k = none :=
  lookup_eq_none_iff.mpr fun p hp => by
    rw [bne_iff_ne]
    exact fun e => h (e ▸ mem_map_of_mem hp)

/-- With distinct keys, `lookup` is membership. -/
theorem lookup_eq_some_iff_mem {l : List (α × β)} (hnd : (l.map Prod.fst).Nodup) {k : α}
    {v : β} : l.lookup k = some v ↔ (k, v) ∈ l := by
  induction l with
  | nil => simp
  | cons p l ih =>
    obtain ⟨a, b⟩ := p
    rw [map_cons, nodup_cons] at hnd
    by_cases hk : k = a
    · subst hk
      simp only [lookup_cons, beq_self_eq_true, Option.some.injEq, mem_cons, Prod.mk.injEq,
        true_and]
      exact ⟨fun h => Or.inl h.symm,
        fun h => h.elim Eq.symm fun hmem => absurd (mem_map_of_mem (f := Prod.fst) hmem) hnd.1⟩
    · have hka : (k == a) = false := by simpa using hk
      simp only [lookup_cons, hka, mem_cons, Prod.mk.injEq, hk, false_and, false_or, ih hnd.2]

/-- Setting the value at position `i` sets the lookup of the key at `i`. -/
theorem lookup_modify_self {l : List (α × β)} (hnd : (l.map Prod.fst).Nodup) {i : ℕ}
    (hi : i < l.length) (v : β) : (l.modify i fun p => (p.1, v)).lookup l[i].1 = some v := by
  induction l generalizing i with
  | nil => simp at hi
  | cons p l ih =>
    obtain ⟨a, b⟩ := p
    rw [map_cons, nodup_cons] at hnd
    cases i with
    | zero => simp [modify_zero_cons]
    | succ i =>
      have hi' : i < l.length := by simpa using hi
      -- the key at position `i + 1` is not the key at the head
      have hne : (l[i].1 == a) = false := by
        rw [beq_eq_false_iff_ne]
        intro e
        have hmem : l[i].1 ∈ l.map Prod.fst := mem_map_of_mem (getElem_mem hi')
        exact hnd.1 (e ▸ hmem)
      simp only [modify_succ_cons, lookup_cons, hne, getElem_cons_succ, ih hnd.2 hi']

/-- Setting the value at position `i` keeps the lookup of every other key. -/
theorem lookup_modify_of_ne {l : List (α × β)} {i : ℕ} (hi : i < l.length) (v : β) {k : α}
    (hk : k ≠ l[i].1) : (l.modify i fun p => (p.1, v)).lookup k = l.lookup k := by
  induction l generalizing i with
  | nil => simp at hi
  | cons p l ih =>
    obtain ⟨a, b⟩ := p
    cases i with
    | zero =>
      have hka : (k == a) = false := by simpa using hk
      simp [modify_zero_cons, lookup_cons, hka]
    | succ i =>
      simp only [modify_succ_cons, lookup_cons]
      split
      · rfl
      · exact ih (by simpa using hi) (by simpa using hk)

/-- When no list but the `j`-th can hold the key, a lookup in all of them is a lookup in that
one. -/
theorem lookup_flatten {ls : List (List (α × β))} {j : ℕ} (hj : j < ls.length) {k : α}
    (hk : ∀ i (hi : i < ls.length), i ≠ j → k ∉ ls[i].map Prod.fst) :
    ls.flatten.lookup k = ls[j].lookup k := by
  induction ls generalizing j with
  | nil => simp at hj
  | cons l ls ih =>
    rw [flatten_cons, lookup_append]
    cases j with
    | zero =>
      -- the key is in none of the later lists
      have hrest : ls.flatten.lookup k = none := by
        refine lookup_eq_none_of_not_mem fun hmem => ?_
        obtain ⟨p, hp, rfl⟩ := mem_map.mp hmem
        obtain ⟨l', hl', hpl'⟩ := mem_flatten.mp hp
        obtain ⟨i, hi, rfl⟩ := mem_iff_getElem.mp hl'
        have := hk (i + 1) (by simpa using hi) (by omega)
        rw [getElem_cons_succ] at this
        exact this (mem_map_of_mem hpl')
      simp [hrest]
    | succ j =>
      have hl : l.lookup k = none := by
        have := hk 0 (by simp) (by omega)
        rw [getElem_cons_zero] at this
        exact lookup_eq_none_of_not_mem this
      rw [hl, Option.none_or, getElem_cons_succ]
      refine ih (by simpa using hj) fun i hi hij => ?_
      have := hk (i + 1) (by simpa using hi) (by omega)
      rwa [getElem_cons_succ] at this

end Lookup

/-- Setting a value keeps the keys. -/
@[simp] theorem map_fst_modify {α β : Type*} (l : List (α × β)) (i : ℕ) (v : β) :
    (l.modify i fun p => (p.1, v)).map Prod.fst = l.map Prod.fst := by
  induction l generalizing i with
  | nil => simp
  | cons p l ih =>
    cases i with
    | zero => simp [modify_zero_cons]
    | succ i => simp [modify_succ_cons, ih]

/-! ## Sorting -/

section Sorting

variable {γ : Type*}

theorem orderedInsert_congr {r r' : γ → γ → Prop} [DecidableRel r] [DecidableRel r'] (a : γ)
    {l : List γ} (h : ∀ y ∈ l, r a y ↔ r' a y) : l.orderedInsert r a = l.orderedInsert r' a := by
  induction l with
  | nil => rfl
  | cons b l ih =>
    have hb := h b mem_cons_self
    by_cases hab : r a b
    · simp [orderedInsert_cons, hab, hb.mp hab]
    · simp [orderedInsert_cons, hab, (not_congr hb).mp hab,
        ih fun y hy => h y (mem_cons_of_mem _ hy)]

/-- Insertion sort by two comparisons that agree on the elements sorted gives the same list. -/
theorem insertionSort_congr {r r' : γ → γ → Prop} [DecidableRel r] [DecidableRel r']
    {l : List γ} (h : ∀ x ∈ l, ∀ y ∈ l, r x y ↔ r' x y) : l.insertionSort r = l.insertionSort r' := by
  induction l with
  | nil => rfl
  | cons a l ih =>
    have ih' := ih fun x hx y hy => h x (mem_cons_of_mem _ hx) y (mem_cons_of_mem _ hy)
    rw [insertionSort_cons, insertionSort_cons, ih']
    exact orderedInsert_congr a fun y hy =>
      h a mem_cons_self y (mem_cons_of_mem _ ((perm_insertionSort r' l).mem_iff.mp hy))

end Sorting

/-! ## Lists sorted by key -/

section SortedKeys

variable {α β : Type*} [LinearOrder α]

/-- Keys in increasing order are distinct. -/
theorem nodup_map_fst_of_sorted {l : List (α × β)} (h : l.Pairwise fun p q => p.1 < q.1) :
    (l.map Prod.fst).Nodup :=
  pairwise_map.mpr (h.imp ne_of_lt)

/-- The pairs taken while the key lies below `k` lie below `k`. -/
theorem lt_of_mem_takeWhile {l : List (α × β)} {p : α × β → Bool} {k : α}
    (hp : ∀ x ∈ l, p x = true ↔ x.1 < k) {x : α × β} (hx : x ∈ l.takeWhile p) : x.1 < k :=
  (hp x ((takeWhile_sublist p).subset hx)).mp (mem_takeWhile_imp hx)

/-- In a list sorted by key, the pairs left after dropping those below `k` lie at or above
`k`. -/
theorem le_of_mem_dropWhile {l : List (α × β)} (hl : l.Pairwise fun p q => p.1 < q.1)
    {p : α × β → Bool} {k : α} (hp : ∀ x ∈ l, p x = true ↔ x.1 < k) {x : α × β}
    (hx : x ∈ l.dropWhile p) : k ≤ x.1 := by
  induction l with
  | nil => simp at hx
  | cons a l ih =>
    rw [pairwise_cons] at hl
    rw [dropWhile_cons] at hx
    split_ifs at hx with ha
    · exact ih hl.2 (fun y hy => hp y (mem_cons_of_mem _ hy)) hx
    · -- the first pair kept is at or above `k`, and the others lie above it
      have hka : k ≤ a.1 := not_lt.mp fun h => ha ((hp a mem_cons_self).mpr h)
      rcases mem_cons.mp hx with rfl | hx
      · exact hka
      · exact hka.trans (hl.1 x hx).le

end SortedKeys

end Kivaloo.Lib
