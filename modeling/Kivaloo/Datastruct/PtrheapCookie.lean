import Mathlib
import Kivaloo.Datastruct.Ptrheap

/-!
# Record cookies of pointer heaps (libcperciva/datastruct/ptrheap.c)

A caller that gives `ptrheap_init` a `setreccookie` callback is told, each time an entry of the
heap moves, the entry and its new position, `setreccookie(cookie, ptr, rc)`; that position is
the record cookie it later passes to `ptrheap_delete`, `ptrheap_decrease` and `ptrheap_increase`.
`swap` tells both entries it exchanges, `ptrheap_add` tells the new entry where it was appended
before sifting it up, `ptrheap_delete` tells the entry it copies into the hole before that one
sifts, and `ptrheap_create` tells every entry once the heap is built.

`setreccookie` may make no `ptrheap` call, and the compare function does not read what it writes
(`timerqueue` writes the `rc` of a record and compares times), so the calls are modelled by their
arguments, in order: each operation has a function listing its calls (`heapifyupCalls` beside
`heapifyup`, `ptrheapAddCalls` beside `ptrheapAdd`), which follows the same branches as the one
that computes the array.

A caller that keeps, for each record, the last cookie it was told (`applyCalls`) knows after
every operation where each entry of the heap is (`CookiesAt`): a swap tells both entries it
moves, and the entries of a heap are distinct.  In `ptrheap_delete` the entry copied into the
hole is told its new position while a copy of it is still at the end, and the sift down never
moves that copy (`heapifyCalls_stale`), so once the end is dropped every cookie is right again
(`CookiesAt.deleteElems`).
-/

namespace Kivaloo.Datastruct

open Kivaloo.Lib

namespace Ptrheap

variable {α : Type*} [Inhabited α] (compar : α → α → ℤ)

/-- The calls of `swap(elems, i, j, setreccookie, cookie)`: the entries now at `i` and at `j`,
each with its position. -/
def swapCalls (elems : List α) (i j : ℕ) : List (α × ℕ) :=
  [(ptrlistGet (swap elems i j) i, i), (ptrlistGet (swap elems i j) j, j)]

/-- The calls of `heapifyup(elems, i, ...)`: those of each swap on the way up. -/
def heapifyupCalls (elems : List α) (i : ℕ) : List (α × ℕ) :=
  if i = 0 then []
  else if compar (ptrlistGet elems i) (ptrlistGet elems ((i - 1) / 2)) ≥ 0 then []
  else swapCalls elems i ((i - 1) / 2) ++
    heapifyupCalls (swap elems i ((i - 1) / 2)) ((i - 1) / 2)
termination_by i
decreasing_by omega

/-- The calls of `heapify(elems, i, N, ...)`: those of each swap on the way down. -/
def heapifyCalls (elems : List α) (i N : ℕ) : List (α × ℕ) :=
  if heapifyMin compar elems i N = i then []
  else swapCalls elems (heapifyMin compar elems i N) i ++
    heapifyCalls (swap elems (heapifyMin compar elems i N) i) (heapifyMin compar elems i N) N
termination_by N - i
decreasing_by
  have := heapifyMin_cases compar elems i N
  omega

/-- The calls of `ptrheap_delete(H, rc)` on the array `elems` of `nelems` entries: unless `rc`
is the last position, the entry copied into `rc`, then those of its sift up or down. -/
def deleteCalls (elems : List α) (nelems rc : ℕ) : List (α × ℕ) :=
  if rc ≠ nelems - 1 then
    let elems := elems.set rc (ptrlistGet elems (nelems - 1))
    (ptrlistGet elems rc, rc) ::
      if rc > 0 ∧ compar (ptrlistGet elems rc) (ptrlistGet elems ((rc - 1) / 2)) < 0 then
        swapCalls elems rc ((rc - 1) / 2) ++
          heapifyupCalls compar (swap elems rc ((rc - 1) / 2)) ((rc - 1) / 2)
      else heapifyCalls compar elems rc nelems
  else []

end Ptrheap

variable {α : Type*} [Inhabited α]

/-- The calls of `ptrheap_create(compar, setreccookie, cookie, N, ptrs)`: the heap is built with
no calls, then each entry is told its position. -/
def ptrheapCreateCalls (compar : α → α → ℤ) (ptrs : List α) : List (α × ℕ) :=
  (List.range ptrs.length).map fun i => (Ptrheap.ptrlistGet (ptrheapCreate compar ptrs).elems i, i)

/-- The calls of `ptrheap_add(H, ptr)`: the new entry at the end, then those of its sift up. -/
def ptrheapAddCalls (H : Ptrheap α) (ptr : α) : List (α × ℕ) :=
  (ptr, H.nelems + 1 - 1) :: Ptrheap.heapifyupCalls H.compar (H.elems ++ [ptr]) (H.nelems + 1 - 1)

/-- The calls of `ptrheap_delete(H, rc)`. -/
def ptrheapDeleteCalls (H : Ptrheap α) (rc : ℕ) : List (α × ℕ) :=
  Ptrheap.deleteCalls H.compar H.elems H.nelems rc

/-- The calls of `ptrheap_deletemin(H)`. -/
def ptrheapDeleteminCalls (H : Ptrheap α) : List (α × ℕ) := ptrheapDeleteCalls H 0

/-- The calls of `ptrheap_decrease(H, rc)`. -/
def ptrheapDecreaseCalls (H : Ptrheap α) (rc : ℕ) : List (α × ℕ) :=
  Ptrheap.heapifyupCalls H.compar H.elems rc

/-- The calls of `ptrheap_increase(H, rc)`. -/
def ptrheapIncreaseCalls (H : Ptrheap α) (rc : ℕ) : List (α × ℕ) :=
  Ptrheap.heapifyCalls H.compar H.elems rc H.nelems

/-! ## The cookies a caller keeps -/

section Cookies

variable {α : Type*} [DecidableEq α]

/-- The cookies of a caller that keeps, for each record, the position it was last told. -/
def applyCalls (rc : α → ℕ) (calls : List (α × ℕ)) : α → ℕ :=
  calls.foldl (fun rc c => Function.update rc c.1 c.2) rc

@[simp] theorem applyCalls_nil (rc : α → ℕ) : applyCalls rc [] = rc := rfl

@[simp] theorem applyCalls_cons (rc : α → ℕ) (c : α × ℕ) (calls : List (α × ℕ)) :
    applyCalls rc (c :: calls) = applyCalls (Function.update rc c.1 c.2) calls := rfl

@[simp] theorem applyCalls_append (rc : α → ℕ) (l₁ l₂ : List (α × ℕ)) :
    applyCalls rc (l₁ ++ l₂) = applyCalls (applyCalls rc l₁) l₂ :=
  List.foldl_append

end Cookies

/-- Each entry of `elems` has its position as its cookie. -/
def CookiesAt (rc : α → ℕ) (elems : List α) : Prop := ∀ i x, elems[i]? = some x → rc x = i

namespace Ptrheap

open Kivaloo.Lib

variable (compar : α → α → ℤ)

theorem swapCalls_append {l : List α} (r : List α) {i j : ℕ} (hi : i < l.length)
    (hj : j < l.length) : swapCalls (l ++ r) i j = swapCalls l i j := by
  have hs : (swap l i j).length = l.length := length_swapAt
  rw [swapCalls, swapCalls, swap_append r hi hj, ptrlistGet_append r (by omega),
    ptrlistGet_append r (by omega)]

/-- The calls of `heapifyup` do not depend on what lies past the position it starts from. -/
theorem heapifyupCalls_append (r : List α) (l : List α) (i : ℕ) (hi : i < l.length) :
    heapifyupCalls compar (l ++ r) i = heapifyupCalls compar l i := by
  fun_induction heapifyupCalls compar l i with
  | case1 l => rw [heapifyupCalls, if_pos rfl]
  | case2 l i hi0 hge =>
    rw [heapifyupCalls, if_neg hi0, ptrlistGet_append r hi, ptrlistGet_append r (by omega),
      if_pos hge]
  | case3 l i hi0 hlt ih =>
    rw [heapifyupCalls, if_neg hi0, ptrlistGet_append r hi, ptrlistGet_append r (by omega),
      if_neg hlt, swapCalls_append r hi (by omega), swap_append r hi (by omega),
      ih (by rw [swap, length_swapAt]; omega)]

section Stale

variable {β : Type*} {key : α → β} [LinearOrder β] {compar} (hK : Keyed compar key)
include hK

/-- The calls of `ptrheap_delete`'s sift down over `N + 1` entries, where entry `N` has the key
of the entry sifted, are those of the sift over the first `N` entries: it makes the same swaps
(`heapify_stale`). -/
theorem heapifyCalls_stale {N : ℕ} (b : List α) (i : ℕ) (hb : b.length = N + 1) (hi : i < N)
    (hcopy : key (ptrlistGet b N) = key (ptrlistGet b i)) :
    heapifyCalls compar b i (N + 1) = heapifyCalls compar b.dropLast i N := by
  fun_induction heapifyCalls compar b i (N + 1) with
  | case1 b i hstop =>
    rw [heapifyCalls.eq_1 compar b.dropLast, if_pos ((heapifyMin_dropLast hK hb hcopy).trans hstop)]
  | case2 b i hmove ih =>
    -- the same child moves up on both sides; the copy at `N` is neither it nor its parent
    have hmin := heapifyMin_dropLast hK hb hcopy
    obtain ⟨hm0, hmi, hmN⟩ := (heapifyMin_cases compar b.dropLast i N).resolve_left (hmin ▸ hmove)
    rw [hmin] at hm0 hmi hmN
    set m := heapifyMin compar b i (N + 1)
    have hswap : swap b m i = swap b.dropLast m i ++ [ptrlistGet b N] := by
      conv_lhs => rw [← dropLast_append_ptrlistGet hb]
      exact swap_append _ (by simp [hb]; omega) (by simp [hb]; omega)
    have hN' : ptrlistGet (swap b m i) N = ptrlistGet b N :=
      ptrlistGet_eq_of_getElem? (swapAt_other (by omega) (by omega))
    have hm' : ptrlistGet (swap b m i) m = ptrlistGet b i :=
      ptrlistGet_eq_of_getElem? (swapAt_left (by omega) (by omega))
    have hdl' : (swap b m i).dropLast = swap b.dropLast m i := by
      rw [hswap, List.dropLast_concat]
    have hsc : swapCalls b m i = swapCalls b.dropLast m i := by
      conv_lhs => rw [← dropLast_append_ptrlistGet hb]
      exact swapCalls_append _ (by simp [hb]; omega) (by simp [hb]; omega)
    rw [ih (by rw [swap, length_swapAt, hb]) hmN (by rw [hN', hm', hcopy]), hdl', hsc,
      heapifyCalls.eq_1 compar b.dropLast, hmin, if_neg hmove]

/-- The calls of `ptrheap_delete` where `rc` is not the last position: the copied entry told
`rc`, then the calls of its sift over the shorter array, as in `deleteElems_dropLast`. -/
theorem deleteCalls_eq {a : List α} {N rc : ℕ} (hN : a.length = N + 1) (hrc : rc < N) :
    deleteCalls compar a (N + 1) rc =
      (ptrlistGet a N, rc) ::
        if rc > 0 ∧ compar (ptrlistGet (a.set rc (ptrlistGet a N)).dropLast rc)
            (ptrlistGet (a.set rc (ptrlistGet a N)).dropLast ((rc - 1) / 2)) < 0 then
          heapifyupCalls compar (a.set rc (ptrlistGet a N)).dropLast rc
        else heapifyCalls compar (a.set rc (ptrlistGet a N)).dropLast rc N := by
  unfold deleteCalls
  rw [Nat.add_sub_cancel, if_pos (by omega)]
  dsimp only
  set x := ptrlistGet a N with hx
  set b := a.set rc x with hbdef
  have hbl : b.length = N + 1 := by rw [hbdef, List.length_set, hN]
  have hb_rc : ptrlistGet b rc = x := by
    rw [hbdef, ptrlistGet, List.getD_eq_getElem?_getD, List.getElem?_set_self (by omega),
      Option.getD_some]
  have hcond : (rc > 0 ∧ compar (ptrlistGet b rc) (ptrlistGet b ((rc - 1) / 2)) < 0) ↔
      (rc > 0 ∧ compar (ptrlistGet b.dropLast rc) (ptrlistGet b.dropLast ((rc - 1) / 2)) < 0) := by
    rw [ptrlistGet_dropLast (by omega), ptrlistGet_dropLast (by omega)]
  refine congrArg₂ List.cons (by rw [hb_rc]) ?_
  by_cases hup : rc > 0 ∧ compar (ptrlistGet b rc) (ptrlistGet b ((rc - 1) / 2)) < 0
  · rw [if_pos hup, if_pos (hcond.mp hup)]
    conv_lhs => rw [← dropLast_append_ptrlistGet hbl]
    rw [swapCalls_append _ (by simp [hbl]; omega) (by simp [hbl]; omega),
      swap_append _ (by simp [hbl]; omega) (by simp [hbl]; omega),
      heapifyupCalls_append compar _ _ _ (by rw [swap, length_swapAt]; simp [hbl]; omega),
      heapifyupCalls.eq_1 compar b.dropLast, if_neg (by omega),
      if_neg (not_le.mpr (hcond.mp hup).2)]
  · rw [if_neg hup, if_neg (mt hcond.mpr hup)]
    have hcopy : ptrlistGet b N = ptrlistGet b rc := by
      rw [hb_rc]
      exact ptrlistGet_eq_of_getElem? (List.getElem?_set_ne (by omega))
    rw [heapifyCalls_stale hK b rc hbl hrc (congrArg key hcopy)]

end Stale

end Ptrheap

/-! ## Every cookie is its entry's position -/

namespace CookiesAt

open Ptrheap

variable [DecidableEq α] {rc : α → ℕ} {a : List α}

omit [Inhabited α] [DecidableEq α] in
/-- Two positions holding one entry of a list of distinct entries are one position. -/
theorem pos_eq_of_nodup (hnd : a.Nodup) {i j : ℕ} {x : α} (hi : a[i]? = some x)
    (hj : a[j]? = some x) : i = j := by
  obtain ⟨hi', rfl⟩ := List.getElem?_eq_some_iff.mp hi
  obtain ⟨hj', hx⟩ := List.getElem?_eq_some_iff.mp hj
  exact (hnd.getElem_inj_iff.mp hx).symm

omit [Inhabited α] [DecidableEq α] in
theorem dropLast (hc : CookiesAt rc a) : CookiesAt rc a.dropLast := fun i x hx => by
  rw [List.getElem?_dropLast] at hx
  split_ifs at hx
  exact hc i x hx

/-- The calls of a swap of two entries of a list of distinct entries tell both where they are
now; every other entry is neither of them and keeps its cookie. -/
theorem swap (hc : CookiesAt rc a) (hnd : a.Nodup) {i j : ℕ} (hi : i < a.length)
    (hj : j < a.length) : CookiesAt (applyCalls rc (swapCalls a i j)) (Ptrheap.swap a i j) := by
  intro k x hx
  have hxi : ptrlistGet (Ptrheap.swap a i j) i = ptrlistGet a j :=
    ptrlistGet_eq_of_getElem? (swapAt_left hi hj)
  have hxj : ptrlistGet (Ptrheap.swap a i j) j = ptrlistGet a i :=
    ptrlistGet_eq_of_getElem? (swapAt_right hi hj)
  simp only [swapCalls, applyCalls_cons, applyCalls_nil, hxi, hxj]
  -- an entry at another position than `m` is not the entry at `m`
  have hne : ∀ {m n : ℕ} {y : α}, m < a.length → a[n]? = some y → n ≠ m → y ≠ ptrlistGet a m :=
    fun hm hy hnm h => hnm (pos_eq_of_nodup hnd hy (h ▸ getElem?_eq_ptrlistGet hm))
  by_cases hkj : k = j
  · rw [hkj, Ptrheap.swap, swapAt_right hi hj, getElem?_eq_ptrlistGet hi] at hx
    rw [← Option.some.inj hx, Function.update_self, hkj]
  by_cases hki : k = i
  · rw [hki, Ptrheap.swap, swapAt_left hi hj, getElem?_eq_ptrlistGet hj] at hx
    have hji : j ≠ i := fun h => hkj (hki.trans h.symm)
    rw [← Option.some.inj hx, Function.update_of_ne (hne hi (getElem?_eq_ptrlistGet hj) hji),
      Function.update_self, hki]
  · rw [Ptrheap.swap, swapAt_other hki hkj] at hx
    rw [Function.update_of_ne (hne hi hx hki), Function.update_of_ne (hne hj hx hkj)]
    exact hc k x hx

variable (compar : α → α → ℤ)

/-- `heapifyup` keeps every cookie right, one swap at a time. -/
theorem heapifyup (hc : CookiesAt rc a) (hnd : a.Nodup) {i : ℕ} (hi : i < a.length) :
    CookiesAt (applyCalls rc (heapifyupCalls compar a i)) (Ptrheap.heapifyup compar a i) := by
  fun_induction Ptrheap.heapifyup compar a i generalizing rc with
  | case1 a => rwa [heapifyupCalls, if_pos rfl]
  | case2 a i hi0 hge => rwa [heapifyupCalls, if_neg hi0, if_pos hge]
  | case3 a i hi0 hlt ih =>
    rw [heapifyupCalls, if_neg hi0, if_neg hlt, applyCalls_append]
    exact ih (hc.swap hnd hi (by omega)) (swapAt_perm.nodup_iff.mpr hnd)
      (by rw [Ptrheap.swap, length_swapAt]; omega)

/-- `heapify` keeps every cookie right, one swap at a time. -/
theorem heapify (hc : CookiesAt rc a) (hnd : a.Nodup) {i N : ℕ} (hN : N ≤ a.length) :
    CookiesAt (applyCalls rc (heapifyCalls compar a i N)) (Ptrheap.heapify compar a i N) := by
  fun_induction Ptrheap.heapify compar a i N generalizing rc with
  | case1 a i hmin => rwa [heapifyCalls, if_pos hmin]
  | case2 a i hmin ih =>
    obtain ⟨hm0, hmi, hmN⟩ := (Ptrheap.heapifyMin_cases compar a i N).resolve_left hmin
    rw [heapifyCalls, if_neg hmin, applyCalls_append]
    exact ih (hc.swap hnd (by omega) (by omega)) (swapAt_perm.nodup_iff.mpr hnd)
      (by rw [Ptrheap.swap, length_swapAt]; omega)

section Delete

variable {β : Type*} {key : α → β} [LinearOrder β] {compar} (hK : Keyed compar key)
include hK

/-- `ptrheap_delete` keeps every cookie right: the entry copied into the hole is told its
position, and then it sifts over the shorter array of distinct entries. -/
theorem deleteElems (hc : CookiesAt rc a) (hnd : a.Nodup) {r : ℕ} (hr : r < a.length) :
    CookiesAt (applyCalls rc (deleteCalls compar a a.length r))
      (Ptrheap.deleteElems compar a a.length r).dropLast := by
  obtain ⟨N, hN⟩ : ∃ N, a.length = N + 1 := ⟨a.length - 1, by omega⟩
  rw [hN]
  by_cases hlast : r = N
  · -- the entry deleted is the last: no call, and the array only shrinks
    rw [deleteCalls, Ptrheap.deleteElems, Nat.add_sub_cancel, if_neg (not_not.mpr hlast),
      if_neg (not_not.mpr hlast), applyCalls_nil]
    exact hc.dropLast
  rw [deleteCalls_eq hK hN (by omega), deleteElems_dropLast hK hN (by omega), applyCalls_cons]
  set x := ptrlistGet a N with hx
  set b := (a.set r x).dropLast with hbdef
  have hbl : b.length = N := by simp [hbdef, hN]
  have hbnd : b.Nodup := by
    have hxa : x = a[a.length - 1] := by
      rw [hx, ptrlistGet, List.getD_eq_getElem _ _ (by omega)]
      simp [hN]
    have hperm : b.Perm (a.eraseIdx r) := by
      rw [hbdef, hxa]
      exact Serverpool.dropLast_set_last_perm hr
    exact hperm.nodup_iff.mpr (hnd.eraseIdx r)
  -- the copy is told `r`; every other entry below `N` is not the copy and keeps its cookie
  have hbc : CookiesAt (Function.update rc x r) b := by
    intro k y hy
    rw [hbdef, List.getElem?_dropLast, List.getElem?_set] at hy
    split_ifs at hy with hk hkr
    · rw [← Option.some.inj hy, Function.update_self, hkr]
    · have hyx : y ≠ x := fun h =>
        (show k ≠ N by simp at hk; omega) (pos_eq_of_nodup hnd hy (h ▸ getElem?_eq_ptrlistGet (by omega)))
      rw [Function.update_of_ne hyx]
      exact hc k y hy
  split_ifs
  · exact hbc.heapifyup compar hbnd (by omega)
  · exact hbc.heapify compar hbnd (by omega)

end Delete

end CookiesAt

/-! ## The operations -/

section Operations

variable [DecidableEq α] {rc : α → ℕ} {H : Ptrheap α}

open Ptrheap

/-- After `ptrheap_create` of distinct pointers, each is told its position, and none is told
another after its own. -/
theorem CookiesAt.create (compar : α → α → ℤ) {ptrs : List α} (hnd : ptrs.Nodup) :
    CookiesAt (applyCalls rc (ptrheapCreateCalls compar ptrs)) (ptrheapCreate compar ptrs).elems := by
  set e := (ptrheapCreate compar ptrs).elems
  have he : e.Perm ptrs := by
    show (Ptrheap.createLoop compar ptrs.length ptrs ptrs.length).Perm ptrs
    exact Ptrheap.createLoop_perm compar _ _ _
  have hend : e.Nodup := he.nodup_iff.mpr hnd
  -- the calls for the positions below `n` tell each of those entries its position
  have hrange : ∀ n ≤ e.length, ∀ k < n,
      applyCalls rc ((List.range n).map fun i => (ptrlistGet e i, i)) (ptrlistGet e k) = k := by
    intro n
    induction n with
    | zero => intro _ k hk; omega
    | succ n ih =>
      intro hn k hk
      rw [List.range_succ, List.map_append, applyCalls_append, List.map_singleton,
        applyCalls_cons, applyCalls_nil]
      rcases Nat.lt_succ_iff_lt_or_eq.mp hk with hk | rfl
      · rw [Function.update_of_ne fun h => (show k ≠ n by omega)
          (ptrlistGet_injective hend (by omega) (by omega) h)]
        exact ih (by omega) k hk
      · exact Function.update_self _ _ _
  intro k x hx
  have hk : k < e.length := (List.getElem?_eq_some_iff.mp hx).1
  rw [getElem?_eq_ptrlistGet hk, Option.some.injEq] at hx
  rw [← hx, ptrheapCreateCalls, ← he.length_eq]
  exact hrange e.length (le_refl _) k hk

/-- After `ptrheap_add` of a pointer not in the heap, every cookie is right: the new entry is told
the last position, where it is, before it sifts up. -/
theorem CookiesAt.add (hc : CookiesAt rc H.elems) (hnd : H.elems.Nodup)
    (hlen : H.nelems = H.elems.length) {x : α} (hx : x ∉ H.elems) :
    CookiesAt (applyCalls rc (ptrheapAddCalls H x)) (ptrheapAdd H x).elems := by
  have hc' : CookiesAt (Function.update rc x H.nelems) (H.elems ++ [x]) := by
    intro k y hy
    rcases Nat.lt_or_ge k H.elems.length with hk | hk
    · rw [List.getElem?_append_left hk] at hy
      have hyx : y ≠ x := fun h => hx (by rw [← h]; exact List.mem_of_getElem? hy)
      rw [Function.update_of_ne hyx]
      exact hc k y hy
    · rw [List.getElem?_append_right hk, List.getElem?_singleton] at hy
      split_ifs at hy with h
      rw [← Option.some.inj hy, Function.update_self, hlen]
      omega
  have hnd' : (H.elems ++ [x]).Nodup :=
    (List.perm_append_singleton x H.elems).nodup_iff.mpr (List.nodup_cons.mpr ⟨hx, hnd⟩)
  show CookiesAt _ (Ptrheap.heapifyup H.compar (H.elems ++ [x]) (H.nelems + 1 - 1))
  rw [ptrheapAddCalls, applyCalls_cons]
  exact hc'.heapifyup H.compar hnd' (by simp [hlen])

/-- After `ptrheap_delete` every cookie is right. -/
theorem CookiesAt.delete {β : Type*} [LinearOrder β] {key : α → β} (hK : Keyed H.compar key)
    (hc : CookiesAt rc H.elems) (hnd : H.elems.Nodup) (hlen : H.nelems = H.elems.length)
    {r : ℕ} {H' : Ptrheap α} (h : ptrheapDelete H r = some H') :
    CookiesAt (applyCalls rc (ptrheapDeleteCalls H r)) H'.elems := by
  rw [ptrheapDelete] at h
  split_ifs at h with hr
  rw [← Option.some.inj h, ptrheapDeleteCalls, hlen]
  exact hc.deleteElems hK hnd (by omega)

/-- After `ptrheap_increase` every cookie is right. -/
theorem CookiesAt.increase (hc : CookiesAt rc H.elems) (hnd : H.elems.Nodup)
    (hlen : H.nelems = H.elems.length) (r : ℕ) :
    CookiesAt (applyCalls rc (ptrheapIncreaseCalls H r)) (ptrheapIncrease H r).elems :=
  hc.heapify H.compar hnd hlen.le

end Operations

end Kivaloo.Datastruct
