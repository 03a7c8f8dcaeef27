import Mathlib
import Kivaloo.Lib.Heap

/-!
# The heap of doubles (lib/datastruct/doubleheap.c)

A `doubleheap` is a binary min-heap in an elastic array `elems` of `nelems` doubles.
`heapifyup` sifts an entry up by swapping it with its parent while it is smaller;
`heapify` sifts an entry down by swapping it with the smaller of its children while one is
smaller.  `doubleheap_create` copies a buffer and sifts down every position from the last to
the first (the loop counter wraps past zero to end the loop); `doubleheap_add` appends and sifts
up; `doubleheap_setmin` replaces the root and sifts down; `doubleheap_deletemin` moves the last
entry to the root, shrinks the array and sifts down.  The doubles, without NaN, are a linear
order `α` here.

What a heap is for is a priority queue: a multiset with its least element (`PQueue.min?`).
A heap holds a multiset (`Doubleheap.Holds`) when `nelems` counts the entries, they satisfy the
heap property, and they are the multiset.  Each operation takes a heap holding `M` to one
holding what the operation makes of `M`, and it fails its assertion exactly where the operation
is undefined on `M` (`HeapOp.apply_rel`); so every run of operations from `doubleheap_create`
keeps the heap property and the contents, and `doubleheap_getmin` answers the least element,
or 1 for an empty heap (`doubleheap_minHeap`).
-/

namespace Kivaloo.Datastruct

open Kivaloo.Lib

variable {α : Type*} [LinearOrder α] [Inhabited α]

/-- `*doublelist_get(elems, i)`. -/
def doublelistGet (elems : List α) (i : ℕ) : α := elems.getD i default

/-- `swap(elems, i, j)`. -/
def swap (elems : List α) (i j : ℕ) : List α := swapAt elems i j

/-- `heapifyup(elems, i)`: sift element `i` up. -/
def heapifyup (elems : List α) (i : ℕ) : List α :=
  if i = 0 then elems
  else if doublelistGet elems i ≥ doublelistGet elems ((i - 1) / 2) then elems
  else heapifyup (swap elems i ((i - 1) / 2)) ((i - 1) / 2)
termination_by i
decreasing_by omega

/-- The minimum out of `{i, 2i+1, 2i+2}` among the first `N` elements, as the loop of `heapify`
looks for it. -/
def heapifyMin (elems : List α) (i N : ℕ) : ℕ :=
  let min := if 2 * i + 1 < N ∧ doublelistGet elems i > doublelistGet elems (2 * i + 1)
    then 2 * i + 1 else i
  if 2 * i + 2 < N ∧ doublelistGet elems min > doublelistGet elems (2 * i + 2) then 2 * i + 2
  else min

/-- The minimum is `i` or a child of `i` among the first `N` elements. -/
theorem heapifyMin_cases (elems : List α) (i N : ℕ) :
    heapifyMin elems i N = i ∨ (0 < heapifyMin elems i N ∧
      (heapifyMin elems i N - 1) / 2 = i ∧ heapifyMin elems i N < N) := by
  unfold heapifyMin
  dsimp only
  split_ifs with h₁ h₂ h₂
  · exact Or.inr ⟨by omega, by omega, h₂.1⟩
  · exact Or.inr ⟨by omega, by omega, h₁.1⟩
  · exact Or.inr ⟨by omega, by omega, h₂.1⟩
  · exact Or.inl rfl

/-- `heapify(elems, i, N)`: sift element `i` out of `N` down. -/
def heapify (elems : List α) (i N : ℕ) : List α :=
  if heapifyMin elems i N = i then elems
  else heapify (swap elems (heapifyMin elems i N) i) (heapifyMin elems i N) N
termination_by N - i
decreasing_by
  have := heapifyMin_cases elems i N
  omega

/-- The loop `for (i = N - 1; i < N; i--) heapify(elems, i, N)` of `doubleheap_create`, from
`i = N - 1` down to 0, where `i` wraps around and the loop ends. -/
def createLoop (N : ℕ) (elems : List α) : ℕ → List α
  | 0 => elems
  | i + 1 => createLoop N (heapify elems i N) i

/-- `struct doubleheap`. -/
structure Doubleheap (α : Type*) where
  elems : List α
  nelems : ℕ

/-- `doubleheap_create(buf, N)`: the `N` doubles of `buf` made into a heap. -/
def doubleheapCreate (buf : List α) : Doubleheap α :=
  ⟨createLoop buf.length buf buf.length, buf.length⟩

/-- `doubleheap_init()`: `doubleheap_create(NULL, 0)`. -/
def doubleheapInit : Doubleheap α := doubleheapCreate []

/-- `doubleheap_add(H, x)`: append `x` and sift it up. -/
def doubleheapAdd (H : Doubleheap α) (x : α) : Doubleheap α :=
  ⟨heapifyup (H.elems ++ [x]) (H.nelems + 1 - 1), H.nelems + 1⟩

/-- `doubleheap_getmin(H, x)`: the element at position 0, or `none` for the return value 1 of an
empty heap. -/
def doubleheapGetmin (H : Doubleheap α) : Option α :=
  if H.nelems ≠ 0 then some (doublelistGet H.elems 0) else none

/-- `doubleheap_setmin(H, x)`: replace the element at position 0 by `x` and sift it down;
`none` where the assertion `H->nelems > 0` fails. -/
def doubleheapSetmin (H : Doubleheap α) (x : α) : Option (Doubleheap α) :=
  if 0 < H.nelems then some ⟨heapify (H.elems.set 0 x) 0 H.nelems, H.nelems⟩ else none

/-- `doubleheap_deletemin(H)`: move the last element to position 0, shrink the array by one and
sift down; `none` where the assertion `H->nelems > 0` fails. -/
def doubleheapDeletemin (H : Doubleheap α) : Option (Doubleheap α) :=
  if 0 < H.nelems then
    some ⟨heapify (H.elems.set 0 (doublelistGet H.elems (H.nelems - 1))).dropLast 0
      (H.nelems - 1), H.nelems - 1⟩
  else none

/-! ## The sifts -/

omit [LinearOrder α] in
theorem getElem?_eq_doublelistGet {elems : List α} {i : ℕ} (h : i < elems.length) :
    elems[i]? = some (doublelistGet elems i) := by
  rw [doublelistGet, List.getD_eq_getElem _ _ h, List.getElem?_eq_getElem h]

/-- What the search for the minimum finds: an element at most `i` and its children, and smaller
than `i` if it is not `i`. -/
theorem heapifyMin_le (elems : List α) (i N : ℕ) :
    doublelistGet elems (heapifyMin elems i N) ≤ doublelistGet elems i ∧
      (∀ c, 0 < c → (c - 1) / 2 = i → c < N →
        doublelistGet elems (heapifyMin elems i N) ≤ doublelistGet elems c) ∧
      (heapifyMin elems i N ≠ i →
        doublelistGet elems (heapifyMin elems i N) < doublelistGet elems i) := by
  unfold heapifyMin
  dsimp only
  split_ifs with h₁ h₂ h₂
  · refine ⟨(lt_trans h₂.2 h₁.2).le, fun c hc hci hcN => ?_, fun _ => lt_trans h₂.2 h₁.2⟩
    rcases parent_eq_iff.mp ⟨hc, hci⟩ with rfl | rfl
    exacts [h₂.2.le, le_refl _]
  · refine ⟨h₁.2.le, fun c hc hci hcN => ?_, fun _ => h₁.2⟩
    rcases parent_eq_iff.mp ⟨hc, hci⟩ with rfl | rfl
    exacts [le_refl _, not_lt.mp fun h => h₂ ⟨hcN, h⟩]
  · refine ⟨h₂.2.le, fun c hc hci hcN => ?_, fun _ => h₂.2⟩
    rcases parent_eq_iff.mp ⟨hc, hci⟩ with rfl | rfl
    exacts [(h₂.2.trans_le (not_lt.mp fun h => h₁ ⟨hcN, h⟩)).le, le_refl _]
  · refine ⟨le_refl _, fun c hc hci hcN => ?_, fun h => absurd rfl h⟩
    rcases parent_eq_iff.mp ⟨hc, hci⟩ with rfl | rfl
    exacts [not_lt.mp fun h => h₁ ⟨hcN, h⟩, not_lt.mp fun h => h₂ ⟨hcN, h⟩]

/-- `heapify` from a hole of `DownOrder` orders the part from `lo` and moves elements only. -/
theorem heapify_spec {lo N : ℕ} (a : List α) (h : ℕ) (o : DownOrder lo a h)
    (hN : a.length = N) : HeapFrom lo (heapify a h N) ∧ (heapify a h N).Perm a := by
  fun_induction heapify a h N with
  | case1 a h hmin =>
    -- the minimum is `h` itself: `h` is at most its children
    refine ⟨o.heapFrom fun c u x hc hch hu hx => ?_, List.Perm.refl a⟩
    have hcl := (List.getElem?_eq_some_iff.mp hu).1
    rw [getElem?_eq_doublelistGet hcl] at hu
    rw [getElem?_eq_doublelistGet (by omega)] at hx
    rw [← Option.some.inj hu, ← Option.some.inj hx]
    have := (heapifyMin_le a h N).2.1 c hc hch (by omega)
    rwa [hmin] at this
  | case2 a h hmin ih =>
    -- the smaller child moves up into `h`, and the sift goes on from the child
    obtain ⟨hm0, hmh, hmN⟩ := (heapifyMin_cases a h N).resolve_left hmin
    obtain ⟨-, hle, hlt⟩ := heapifyMin_le a h N
    have o' := o.swap (by omega) ⟨hm0, hmh⟩ (getElem?_eq_doublelistGet (by omega))
      (getElem?_eq_doublelistGet (by omega)) (hlt hmin) fun c u hc hch hu => by
        have hcl := (List.getElem?_eq_some_iff.mp hu).1
        rw [getElem?_eq_doublelistGet hcl] at hu
        rw [← Option.some.inj hu]
        exact hle c hc hch (by omega)
    obtain ⟨hheap, hperm⟩ := ih o' (by rw [swap, length_swapAt, hN])
    exact ⟨hheap, hperm.trans swapAt_perm⟩

/-- `heapifyup` from a hole of `UpOrder` makes a heap and moves elements only. -/
theorem heapifyup_spec (a : List α) (i : ℕ) (o : UpOrder a i) (hi : i < a.length) :
    IsHeap (heapifyup a i) ∧ (heapifyup a i).Perm a := by
  fun_induction heapifyup a i with
  | case1 a =>
    exact ⟨o.isHeap fun _ _ h => absurd h (lt_irrefl 0), List.Perm.refl a⟩
  | case2 a i hi0 hge =>
    -- the element is at least its parent: the hole is closed
    refine ⟨o.isHeap fun x y _ hx hy => ?_, List.Perm.refl a⟩
    rw [getElem?_eq_doublelistGet hi] at hx
    rw [getElem?_eq_doublelistGet (by omega)] at hy
    rw [← Option.some.inj hx, ← Option.some.inj hy]
    exact hge
  | case3 a i hi0 hlt ih =>
    have o' := o.swap (Nat.pos_of_ne_zero hi0) hi (getElem?_eq_doublelistGet hi)
      (getElem?_eq_doublelistGet (by omega)) (lt_of_not_ge hlt)
    obtain ⟨hheap, hperm⟩ := ih o' (by rw [swap, length_swapAt]; omega)
    exact ⟨hheap, hperm.trans swapAt_perm⟩

/-- The loop of `doubleheap_create`: after position `i`, everything from `i` on is ordered. -/
theorem createLoop_spec {N : ℕ} :
    ∀ (i : ℕ) (a : List α), HeapFrom i a → a.length = N →
      IsHeap (createLoop N a i) ∧ (createLoop N a i).Perm a
  | 0, a, ha, _ => ⟨ha, List.Perm.refl a⟩
  | i + 1, a, ha, hN => by
    obtain ⟨hheap, hperm⟩ := heapify_spec a i ha.downOrder hN
    obtain ⟨hheap', hperm'⟩ := createLoop_spec i _ hheap (by rw [hperm.length_eq, hN])
    exact ⟨hheap', hperm'.trans hperm⟩

/-! ## The operations against a multiset -/

/-- The heap `H` holds the multiset `M`: `nelems` counts the elements, they satisfy the heap
property, and they are the elements of `M`. -/
structure Doubleheap.Holds (H : Doubleheap α) (M : Multiset α) : Prop where
  nelems_eq : H.nelems = H.elems.length
  heap : IsHeap H.elems
  elems_eq : (H.elems : Multiset α) = M

omit [LinearOrder α] in
/-- Moving the last element to the root and dropping the last position leaves the elements
after the root. -/
theorem dropLast_set_perm_tail {a : List α} (ha : a ≠ []) :
    (a.set 0 (doublelistGet a (a.length - 1))).dropLast.Perm a.tail := by
  obtain ⟨r, y, rfl⟩ := (List.eq_nil_or_concat a).resolve_left ha
  rw [List.concat_eq_append]
  have hy : doublelistGet (r ++ [y]) ((r ++ [y]).length - 1) = y := by
    simp [doublelistGet]
  rw [hy]
  cases r with
  | nil => simp
  | cons m r =>
    simp only [List.set_cons_zero, List.cons_append, List.tail_cons]
    rw [← List.cons_append, List.dropLast_concat]
    exact (List.perm_append_singleton y r).symm

theorem doubleheapCreate_holds (buf : List α) : (doubleheapCreate buf).Holds buf := by
  obtain ⟨hheap, hperm⟩ := createLoop_spec buf.length buf (heapFrom_length buf) rfl
  exact ⟨hperm.length_eq.symm, hheap, Multiset.coe_eq_coe.mpr hperm⟩

namespace Doubleheap.Holds

variable {H : Doubleheap α} {M : Multiset α}

/-- `doubleheap_getmin` answers the least element, and 1 (`none`) for an empty heap. -/
theorem getmin_eq (hH : H.Holds M) : doubleheapGetmin H = PQueue.min? M := by
  rw [← hH.elems_eq, hH.heap.min?_eq, doubleheapGetmin, hH.nelems_eq]
  by_cases h0 : H.elems.length = 0
  · rw [if_neg (not_not.mpr h0), List.getElem?_eq_none (by omega)]
  · rw [if_pos h0, getElem?_eq_doublelistGet (by omega)]

theorem add (hH : H.Holds M) (x : α) : (doubleheapAdd H x).Holds (x ::ₘ M) := by
  have hlen : H.nelems + 1 - 1 < (H.elems ++ [x]).length := by simp [hH.nelems_eq]
  have o : UpOrder (H.elems ++ [x]) (H.nelems + 1 - 1) := by
    rw [Nat.add_sub_cancel, hH.nelems_eq]
    exact hH.heap.upOrder_append x
  obtain ⟨hheap, hperm⟩ := heapifyup_spec _ _ o hlen
  refine ⟨?_, hheap, ?_⟩
  · show H.nelems + 1 = (heapifyup (H.elems ++ [x]) (H.nelems + 1 - 1)).length
    rw [hperm.length_eq, List.length_append, hH.nelems_eq, List.length_singleton]
  · show ((heapifyup (H.elems ++ [x]) (H.nelems + 1 - 1) : List α) : Multiset α) = x ::ₘ M
    rw [Multiset.coe_eq_coe.mpr (hperm.trans (List.perm_append_singleton x H.elems)),
      ← Multiset.cons_coe, hH.elems_eq]

/-- `doubleheap_setmin` replaces the least element, and fails its assertion on an empty heap. -/
theorem setmin (hH : H.Holds M) (x : α) :
    Option.Rel Doubleheap.Holds (doubleheapSetmin H x)
      ((PQueue.min? M).map fun m => x ::ₘ M.erase m) := by
  rw [← hH.getmin_eq, doubleheapSetmin, doubleheapGetmin]
  obtain ⟨elems, n⟩ := H
  obtain ⟨hn, hheap, rfl⟩ := hH
  dsimp only at hn hheap ⊢
  subst hn
  cases elems with
  | nil => exact Option.Rel.none
  | cons m t =>
    -- the root `m` is replaced by `x`, and `heapify` sifts `x` down
    have o : DownOrder 0 ((m :: t).set 0 x) 0 :=
      hheap.downOrder_root fun j u hj hu => by rwa [List.getElem?_set_ne (Ne.symm hj)] at hu
    obtain ⟨hheap', hperm⟩ := heapify_spec _ 0 o (N := (m :: t).length) rfl
    refine Option.Rel.some ⟨by rw [hperm.length_eq]; simp, hheap', ?_⟩
    rw [Multiset.coe_eq_coe.mpr hperm]
    simp [doublelistGet]

/-- On a heap whose least element is `m`, `doubleheap_setmin` succeeds and replaces `m`. -/
theorem setmin_of_min? (hH : H.Holds M) (x : α) {m : α} (hm : PQueue.min? M = some m) :
    ∃ H', doubleheapSetmin H x = some H' ∧ H'.Holds (x ::ₘ M.erase m) := by
  have hrel := hH.setmin x
  rw [hm, Option.map_some] at hrel
  generalize doubleheapSetmin H x = r at hrel
  cases hrel with
  | some hH' => exact ⟨_, rfl, hH'⟩

/-- `doubleheap_deletemin` takes out the least element, and fails its assertion on an empty
heap. -/
theorem deletemin (hH : H.Holds M) :
    Option.Rel Doubleheap.Holds (doubleheapDeletemin H) ((PQueue.min? M).map M.erase) := by
  rw [← hH.getmin_eq, doubleheapDeletemin, doubleheapGetmin]
  obtain ⟨elems, n⟩ := H
  obtain ⟨hn, hheap, rfl⟩ := hH
  dsimp only at hn hheap ⊢
  subst hn
  cases elems with
  | nil => exact Option.Rel.none
  | cons m t =>
    -- the last element moves to the root, the array shrinks, and `heapify` sifts it down
    set b := ((m :: t).set 0 (doublelistGet (m :: t) ((m :: t).length - 1))).dropLast with hb
    have hbt : b.Perm t := dropLast_set_perm_tail (List.cons_ne_nil m t)
    have o : DownOrder 0 b 0 := hheap.downOrder_root fun j u hj hu => by
      rw [hb, List.getElem?_dropLast] at hu
      split_ifs at hu
      rwa [List.getElem?_set_ne (Ne.symm hj)] at hu
    obtain ⟨hheap', hperm⟩ := heapify_spec b 0 o (N := (m :: t).length - 1)
      (by rw [hbt.length_eq]; simp)
    refine Option.Rel.some ⟨by rw [hperm.length_eq, hbt.length_eq]; simp, hheap', ?_⟩
    rw [Multiset.coe_eq_coe.mpr (hperm.trans hbt)]
    simp [doublelistGet]

end Doubleheap.Holds

/-- The operations on a heap after `doubleheap_create`. -/
inductive HeapOp (α : Type*)
  | add (x : α)
  | setmin (x : α)
  | deletemin

/-- One operation on the heap; `none` where its assertion fails. -/
def HeapOp.apply : HeapOp α → Doubleheap α → Option (Doubleheap α)
  | .add x, H => some (doubleheapAdd H x)
  | .setmin x, H => doubleheapSetmin H x
  | .deletemin, H => doubleheapDeletemin H

/-- What an operation does to the multiset: `setmin` and `deletemin` take its least element
out, and are undefined on the empty multiset. -/
def HeapOp.applyMultiset : HeapOp α → Multiset α → Option (Multiset α)
  | .add x, M => some (x ::ₘ M)
  | .setmin x, M => (PQueue.min? M).map fun m => x ::ₘ M.erase m
  | .deletemin, M => (PQueue.min? M).map M.erase

/-- A run of operations on the heap, `none` once an assertion fails. -/
def doubleheapRun : Doubleheap α → List (HeapOp α) → Option (Doubleheap α)
  | H, [] => some H
  | H, op :: ops => (op.apply H).bind fun H' => doubleheapRun H' ops

/-- A run of operations on the multiset, `none` once one is undefined. -/
def multisetRun : Multiset α → List (HeapOp α) → Option (Multiset α)
  | M, [] => some M
  | M, op :: ops => (op.applyMultiset M).bind fun M' => multisetRun M' ops

/-- Each operation takes a heap holding `M` to one holding what the operation makes of `M`, and
fails exactly where the operation is undefined. -/
theorem HeapOp.apply_rel {H : Doubleheap α} {M : Multiset α} (hH : H.Holds M) (op : HeapOp α) :
    Option.Rel Doubleheap.Holds (op.apply H) (op.applyMultiset M) := by
  cases op with
  | add x => exact Option.Rel.some (hH.add x)
  | setmin x => exact hH.setmin x
  | deletemin => exact hH.deletemin

/-- Every run of operations keeps the heap holding the multiset of the abstract run. -/
theorem doubleheapRun_rel :
    ∀ (ops : List (HeapOp α)) {H : Doubleheap α} {M : Multiset α}, H.Holds M →
      Option.Rel Doubleheap.Holds (doubleheapRun H ops) (multisetRun M ops)
  | [], _, _, hH => Option.Rel.some hH
  | op :: ops, H, M, hH => by
    rw [doubleheapRun, multisetRun]
    have hstep := HeapOp.apply_rel hH op
    generalize op.apply H = r₁ at hstep
    generalize op.applyMultiset M = r₂ at hstep
    cases hstep with
    | none => exact Option.Rel.none
    | some hH' => exact doubleheapRun_rel ops hH'

theorem doubleheap_minHeap (buf : List α) (ops : List (HeapOp α)) :
    (doubleheapRun (doubleheapCreate buf) ops).isSome =
        (multisetRun (buf : Multiset α) ops).isSome ∧
      ∀ H M, doubleheapRun (doubleheapCreate buf) ops = some H →
        multisetRun (buf : Multiset α) ops = some M →
          (H.elems : Multiset α) = M ∧ H.nelems = H.elems.length ∧ IsHeap H.elems ∧
            (doubleheapGetmin H = none ↔ M = 0) ∧
            ∀ m, doubleheapGetmin H = some m → m ∈ M ∧ ∀ y ∈ M, m ≤ y := by
  have hrel := doubleheapRun_rel ops (doubleheapCreate_holds buf)
  generalize doubleheapRun (doubleheapCreate buf) ops = r₁ at hrel ⊢
  generalize multisetRun (buf : Multiset α) ops = r₂ at hrel ⊢
  cases hrel with
  | none => exact ⟨rfl, fun H M hH => absurd hH (by simp)⟩
  | some hHM =>
    refine ⟨rfl, fun H M hH hM => ?_⟩
    rw [← Option.some.inj hH, ← Option.some.inj hM]
    refine ⟨hHM.elems_eq, hHM.nelems_eq, hHM.heap, ?_, fun m hm => ?_⟩
    · rw [hHM.getmin_eq, PQueue.min?_eq_none]
    · rwa [hHM.getmin_eq, PQueue.min?_eq_some] at hm

/-- A heap made of 5, 3, 8, 1 and 9, then 2 added, the least deleted, the new least replaced by
7 and 4 added, holds 3, 4, 5, 7, 8 and 9, and answers 3. -/
theorem doubleheap_minHeap_fiveElems :
    ∃ H M, doubleheapRun (doubleheapCreate [5, 3, 8, 1, 9])
          [.add 2, .deletemin, .setmin 7, .add 4] = some H ∧
      multisetRun (([5, 3, 8, 1, 9] : List ℕ) : Multiset ℕ) [.add 2, .deletemin, .setmin 7, .add 4] =
          some M ∧
      M = {3, 4, 5, 7, 8, 9} ∧ doubleheapGetmin H = some 3 ∧ (H.elems : Multiset ℕ) = M ∧ IsHeap H.elems := by
  obtain ⟨-, hspec⟩ := doubleheap_minHeap [5, 3, 8, 1, 9] [.add 2, .deletemin, .setmin 7, .add 4]
  have hmin : (doubleheapRun (doubleheapCreate [5, 3, 8, 1, 9])
      [.add 2, .deletemin, .setmin 7, .add 4]).map doubleheapGetmin = some (some 3) := by
    with_unfolding_all decide
  obtain ⟨H, hH, hget⟩ := Option.map_eq_some_iff.mp hmin
  have hM : multisetRun (([5, 3, 8, 1, 9] : List ℕ) : Multiset ℕ)
      [.add 2, .deletemin, .setmin 7, .add 4] = some {3, 4, 5, 7, 8, 9} := by
    with_unfolding_all decide
  obtain ⟨helems, -, hheap, -, -⟩ := hspec H _ hH hM
  exact ⟨H, _, hH, hM, rfl, hget, helems, hheap⟩

end Kivaloo.Datastruct
