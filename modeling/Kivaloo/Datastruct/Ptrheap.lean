import Mathlib
import Kivaloo.Lib.Heap
import Kivaloo.Serverpool.Pool
import Kivaloo.Lib.Transition

/-!
# Pointer heaps (libcperciva/datastruct/ptrheap.c)

A `ptrheap` is a binary min-heap of pointers in an elastic array, ordered by the compare
function `compar` its creator gives.  `heapifyup` swaps an entry with its parent while `compar`
finds it smaller; `heapify` swaps it with the least of it and its children, as `compar` finds
them, while that is a child.  `ptrheap_add` appends and sifts up.  `ptrheap_delete(H, rc)`
copies the last entry over entry `rc` and moves it up or down, and only then drops the last
position, so its sift down runs over the array with the copy still at the end.
`ptrheap_decrease` and `ptrheap_increase` sift an entry whose record the caller has changed.  The
calls to the `setreccookie` callback, which tell the caller where each entry moves, are modelled
in `Kivaloo.Datastruct.PtrheapCookie`; here they change nothing.

The heap is specified through a key: `compar` orders by `key` when its sign is that of comparing
the keys (`Keyed`), as `fs_compar` of lbs orders files by number.  The keys of the entries then
form a heap of `Kivaloo.Lib.Heap` (`Ptrheap.Holds`), each sift is one of the library's, and each
operation takes a heap holding a multiset to one holding what the operation makes of it.  The
copy at the end in `ptrheap_delete` has the key of the entry sifted down, so `compar` never
finds it smaller than that entry, and the sift never moves it (`heapify_stale`).
-/

namespace Kivaloo.Datastruct

open Kivaloo.Lib

/-- `struct ptrheap`: the compare function, and the array `elems` of pointers with its length
`nelems`. -/
structure Ptrheap (α : Type*) where
  compar : α → α → ℤ
  elems : List α
  nelems : ℕ

namespace Ptrheap

variable {α : Type*} [Inhabited α] (compar : α → α → ℤ)

/-- `*ptrlist_get(elems, i)`. -/
def ptrlistGet (elems : List α) (i : ℕ) : α := elems.getD i default

/-- `swap(elems, i, j, setreccookie, cookie)`. -/
def swap (elems : List α) (i j : ℕ) : List α := swapAt elems i j

/-- `heapifyup(elems, i, compar, ...)`: sift element `i` up. -/
def heapifyup (elems : List α) (i : ℕ) : List α :=
  if i = 0 then elems
  else if compar (ptrlistGet elems i) (ptrlistGet elems ((i - 1) / 2)) ≥ 0 then elems
  else heapifyup (swap elems i ((i - 1) / 2)) ((i - 1) / 2)
termination_by i
decreasing_by omega

/-- The minimum out of `{i, 2i+1, 2i+2}` among the first `N` elements, as the loop of `heapify`
looks for it with `compar`. -/
def heapifyMin (elems : List α) (i N : ℕ) : ℕ :=
  let min := if 2 * i + 1 < N ∧ compar (ptrlistGet elems i) (ptrlistGet elems (2 * i + 1)) > 0
    then 2 * i + 1 else i
  if 2 * i + 2 < N ∧ compar (ptrlistGet elems min) (ptrlistGet elems (2 * i + 2)) > 0 then 2 * i + 2
  else min

/-- The minimum is `i` or a child of `i` among the first `N` elements. -/
theorem heapifyMin_cases (elems : List α) (i N : ℕ) :
    heapifyMin compar elems i N = i ∨ (0 < heapifyMin compar elems i N ∧
      (heapifyMin compar elems i N - 1) / 2 = i ∧ heapifyMin compar elems i N < N) := by
  unfold heapifyMin
  dsimp only
  split_ifs with h₁ h₂ h₂
  · exact Or.inr ⟨by omega, by omega, h₂.1⟩
  · exact Or.inr ⟨by omega, by omega, h₁.1⟩
  · exact Or.inr ⟨by omega, by omega, h₂.1⟩
  · exact Or.inl rfl

/-- `heapify(elems, i, N, compar, ...)`: sift element `i` out of `N` down. -/
def heapify (elems : List α) (i N : ℕ) : List α :=
  if heapifyMin compar elems i N = i then elems
  else heapify (swap elems (heapifyMin compar elems i N) i) (heapifyMin compar elems i N) N
termination_by N - i
decreasing_by
  have := heapifyMin_cases compar elems i N
  omega

/-- The loop `for (i = N - 1; i < N; i--) heapify(...)` of `ptrheap_create`, from `i = N - 1`
down to 0, where `i` wraps around and the loop ends. -/
def createLoop (N : ℕ) (elems : List α) : ℕ → List α
  | 0 => elems
  | i + 1 => createLoop N (heapify compar elems i N) i

/-- The array of `ptrheap_delete(H, rc)` before it shrinks: unless `rc` is the last position,
the last entry is copied over entry `rc`, then swapped with its parent and sifted up if
`compar` finds it smaller than the parent, and sifted down over all `nelems` positions if not. -/
def deleteElems (elems : List α) (nelems rc : ℕ) : List α :=
  if rc ≠ nelems - 1 then
    let elems := elems.set rc (ptrlistGet elems (nelems - 1))
    if rc > 0 ∧ compar (ptrlistGet elems rc) (ptrlistGet elems ((rc - 1) / 2)) < 0 then
      heapifyup compar (swap elems rc ((rc - 1) / 2)) ((rc - 1) / 2)
    else heapify compar elems rc nelems
  else elems

end Ptrheap

variable {α : Type*} [Inhabited α]

/-- `ptrheap_create(compar, NULL, NULL, N, ptrs)`: the `N` pointers made into a heap. -/
def ptrheapCreate (compar : α → α → ℤ) (ptrs : List α) : Ptrheap α :=
  ⟨compar, Ptrheap.createLoop compar ptrs.length ptrs ptrs.length, ptrs.length⟩

/-- `ptrheap_init(compar, NULL, NULL)`: `ptrheap_create` of no pointers. -/
def ptrheapInit (compar : α → α → ℤ) : Ptrheap α := ptrheapCreate compar []

/-- `ptrheap_add(H, ptr)`: append `ptr` and sift it up. -/
def ptrheapAdd (H : Ptrheap α) (ptr : α) : Ptrheap α :=
  { H with elems := Ptrheap.heapifyup H.compar (H.elems ++ [ptr]) (H.nelems + 1 - 1)
           nelems := H.nelems + 1 }

/-- `ptrheap_getmin(H)`: the pointer at position 0, or `none` for the NULL of an empty heap. -/
def ptrheapGetmin (H : Ptrheap α) : Option α :=
  if H.nelems ≠ 0 then some (Ptrheap.ptrlistGet H.elems 0) else none

/-- `ptrheap_delete(H, rc)`; `none` where `rc` is not a position of the heap, where the code
reads and writes past the array. -/
def ptrheapDelete (H : Ptrheap α) (rc : ℕ) : Option (Ptrheap α) :=
  if rc < H.nelems then
    some { H with elems := (Ptrheap.deleteElems H.compar H.elems H.nelems rc).dropLast
                  nelems := H.nelems - 1 }
  else none

/-- `ptrheap_deletemin(H)`. -/
def ptrheapDeletemin (H : Ptrheap α) : Option (Ptrheap α) := ptrheapDelete H 0

/-- `ptrheap_decrease(H, rc)`: the entry at `rc` has decreased and is sifted up. -/
def ptrheapDecrease (H : Ptrheap α) (rc : ℕ) : Ptrheap α :=
  { H with elems := Ptrheap.heapifyup H.compar H.elems rc }

/-- `ptrheap_increase(H, rc)`: the entry at `rc` has increased and is sifted down. -/
def ptrheapIncrease (H : Ptrheap α) (rc : ℕ) : Ptrheap α :=
  { H with elems := Ptrheap.heapify H.compar H.elems rc H.nelems }

/-- `ptrheap_increasemin(H)`. -/
def ptrheapIncreasemin (H : Ptrheap α) : Ptrheap α := ptrheapIncrease H 0

/-! ## Compare functions that order by a key -/

/-- `compar` orders by `key`: it is negative, or positive, exactly where the key of its first
argument is below, or above, that of its second. -/
structure Keyed {β : Type*} [LinearOrder β] (compar : α → α → ℤ) (key : α → β) : Prop where
  neg_iff : ∀ x y, compar x y < 0 ↔ key x < key y
  pos_iff : ∀ x y, 0 < compar x y ↔ key y < key x

namespace Ptrheap

variable {β : Type*} {key : α → β}

theorem getElem?_map_key {a : List α} {i : ℕ} (h : i < a.length) :
    (a.map key)[i]? = some (key (ptrlistGet a i)) := by
  rw [List.getElem?_map, ptrlistGet, List.getD_eq_getElem _ _ h, List.getElem?_eq_getElem h]
  rfl

omit [Inhabited α] in
theorem map_swap (a : List α) (i j : ℕ) : (swap a i j).map key = swapAt (a.map key) i j :=
  swapAt_map key

theorem ptrlistGet_eq_of_getElem? {a b : List α} {i j : ℕ} (h : a[i]? = b[j]?) :
    ptrlistGet a i = ptrlistGet b j := by
  simp only [ptrlistGet, List.getD_eq_getElem?_getD, h]

theorem ptrlistGet_append {l : List α} (r : List α) {j : ℕ} (h : j < l.length) :
    ptrlistGet (l ++ r) j = ptrlistGet l j :=
  ptrlistGet_eq_of_getElem? (List.getElem?_append_left h)

theorem ptrlistGet_dropLast {l : List α} {j : ℕ} (h : j < l.length - 1) :
    ptrlistGet l.dropLast j = ptrlistGet l j :=
  ptrlistGet_eq_of_getElem? (by rw [List.getElem?_dropLast, if_pos h])

theorem getElem?_eq_ptrlistGet {a : List α} {i : ℕ} (h : i < a.length) :
    a[i]? = some (ptrlistGet a i) := by
  rw [ptrlistGet, List.getD_eq_getElem _ _ h, List.getElem?_eq_getElem h]

theorem ptrlistGet_mem {a : List α} {i : ℕ} (h : i < a.length) : ptrlistGet a i ∈ a := by
  rw [ptrlistGet, List.getD_eq_getElem _ _ h]
  exact List.getElem_mem h

/-- In an array of distinct entries, an entry is at one position only. -/
theorem ptrlistGet_injective {a : List α} (hnd : a.Nodup) {i j : ℕ} (hi : i < a.length)
    (hj : j < a.length) (h : ptrlistGet a i = ptrlistGet a j) : i = j := by
  rw [ptrlistGet, ptrlistGet, List.getD_eq_getElem _ _ hi, List.getD_eq_getElem _ _ hj] at h
  exact hnd.getElem_inj_iff.mp h

omit [Inhabited α] in
theorem swap_append {l : List α} (r : List α) {i j : ℕ} (hi : i < l.length) (hj : j < l.length) :
    swap (l ++ r) i j = swap l i j ++ r := by
  simp only [swap, swapAt, List.getElem?_append_left hi, List.getElem?_append_left hj]
  split
  · rw [List.set_append_left _ _ hi, List.set_append_left _ _ (by simpa using hj)]
  · rfl

variable (compar : α → α → ℤ)

/-- `heapifyup` moves entries only among the positions up to where it starts. -/
theorem heapifyup_append (r : List α) (l : List α) (i : ℕ) (hi : i < l.length) :
    heapifyup compar (l ++ r) i = heapifyup compar l i ++ r := by
  fun_induction heapifyup compar l i with
  | case1 l => rw [heapifyup, if_pos rfl]
  | case2 l i hi0 hge =>
    rw [heapifyup, if_neg hi0, ptrlistGet_append r hi, ptrlistGet_append r (by omega), if_pos hge]
  | case3 l i hi0 hlt ih =>
    rw [heapifyup, if_neg hi0, ptrlistGet_append r hi, ptrlistGet_append r (by omega), if_neg hlt,
      swap_append r hi (by omega), ih (by rw [swap, length_swapAt]; omega)]

/-- `heapify` only moves entries. -/
theorem heapify_perm (a : List α) (i N : ℕ) : (heapify compar a i N).Perm a := by
  fun_induction heapify compar a i N with
  | case1 a i _ => exact List.Perm.refl a
  | case2 a i _ ih => exact ih.trans swapAt_perm

/-- The loop of `ptrheap_create` only moves entries. -/
theorem createLoop_perm (N : ℕ) : ∀ (i : ℕ) (a : List α), (createLoop compar N a i).Perm a
  | 0, a => List.Perm.refl a
  | i + 1, a => (createLoop_perm N i _).trans (heapify_perm compar a i N)

/-- The search for the minimum reads the first `N` entries only. -/
theorem heapifyMin_congr {a b : List α} {i N : ℕ} (hab : ∀ j < N, ptrlistGet a j = ptrlistGet b j) :
    heapifyMin compar a i N = heapifyMin compar b i N := by
  unfold heapifyMin
  dsimp only
  have e₁ : (2 * i + 1 < N ∧ compar (ptrlistGet a i) (ptrlistGet a (2 * i + 1)) > 0) ↔
      (2 * i + 1 < N ∧ compar (ptrlistGet b i) (ptrlistGet b (2 * i + 1)) > 0) :=
    and_congr_right fun h => by rw [hab i (by omega), hab _ h]
  -- the candidate of the first test is below `N` wherever the second test reads it
  have e₂ : ∀ m, m ≤ 2 * i + 1 → ((2 * i + 2 < N ∧ compar (ptrlistGet a m) (ptrlistGet a (2 * i + 2)) > 0) ↔
      (2 * i + 2 < N ∧ compar (ptrlistGet b m) (ptrlistGet b (2 * i + 2)) > 0)) :=
    fun m hm => and_congr_right fun h => by rw [hab m (by omega), hab _ h]
  by_cases h₁ : 2 * i + 1 < N ∧ compar (ptrlistGet b i) (ptrlistGet b (2 * i + 1)) > 0
  · rw [if_pos (e₁.mpr h₁), if_pos h₁, if_congr (e₂ _ (le_refl _)) rfl rfl]
  · rw [if_neg (mt e₁.mp h₁), if_neg h₁, if_congr (e₂ i (by omega)) rfl rfl]

/-! ## The sifts -/

variable [LinearOrder β] {compar : α → α → ℤ} (hK : Keyed compar key)
include hK

/-- What the search for the minimum finds: an element whose key is at most those of `i` and its
children, and below that of `i` if it is not `i`. -/
theorem heapifyMin_le (elems : List α) (i N : ℕ) :
    key (ptrlistGet elems (heapifyMin compar elems i N)) ≤ key (ptrlistGet elems i) ∧
      (∀ c, 0 < c → (c - 1) / 2 = i → c < N →
        key (ptrlistGet elems (heapifyMin compar elems i N)) ≤ key (ptrlistGet elems c)) ∧
      (heapifyMin compar elems i N ≠ i →
        key (ptrlistGet elems (heapifyMin compar elems i N)) < key (ptrlistGet elems i)) := by
  unfold heapifyMin
  dsimp only
  simp only [gt_iff_lt, hK.pos_iff]
  split_ifs with h₁ h₂ h₂
  · refine ⟨(lt_trans h₂.2 h₁.2).le, fun c hc hci hcN => ?_, fun _ => lt_trans h₂.2 h₁.2⟩
    rcases parent_eq_iff.mp ⟨hc, hci⟩ with rfl | rfl
    exacts [h₂.2.le, le_refl _]
  · refine ⟨h₁.2.le, fun c hc hci hcN => ?_, fun _ => h₁.2⟩
    rcases parent_eq_iff.mp ⟨hc, hci⟩ with rfl | rfl
    exacts [le_refl _, not_lt.mp fun h => h₂ ⟨hcN, h⟩]
  · refine ⟨h₂.2.le, fun c hc hci hcN => ?_, fun _ => h₂.2⟩
    rcases parent_eq_iff.mp ⟨hc, hci⟩ with rfl | rfl
    exacts [(h₂.2.trans_le (not_lt.mp fun h => h₁ ⟨hcN, h⟩)).le, le_refl _]
  · refine ⟨le_refl _, fun c hc hci hcN => ?_, fun h => absurd rfl h⟩
    rcases parent_eq_iff.mp ⟨hc, hci⟩ with rfl | rfl
    exacts [not_lt.mp fun h => h₁ ⟨hcN, h⟩, not_lt.mp fun h => h₂ ⟨hcN, h⟩]

/-- `heapify` from a hole of `DownOrder` on the keys orders the keys from `lo` and moves entries
only. -/
theorem heapify_spec {lo N : ℕ} (a : List α) (h : ℕ) (o : DownOrder lo (a.map key) h)
    (hN : a.length = N) :
    HeapFrom lo ((heapify compar a h N).map key) ∧ (heapify compar a h N).Perm a := by
  fun_induction heapify compar a h N with
  | case1 a h hmin =>
    -- the minimum is `h` itself: `h` is at most its children
    refine ⟨o.heapFrom fun c u x hc hch hu hx => ?_, List.Perm.refl a⟩
    have hcl : c < a.length := by simpa using (List.getElem?_eq_some_iff.mp hu).1
    rw [getElem?_map_key hcl] at hu
    rw [getElem?_map_key (by omega)] at hx
    rw [← Option.some.inj hu, ← Option.some.inj hx]
    have := (heapifyMin_le hK a h N).2.1 c hc hch (by omega)
    rwa [hmin] at this
  | case2 a h hmin ih =>
    -- the least child moves up into `h`, and the sift goes on from the child
    obtain ⟨hm0, hmh, hmN⟩ := (heapifyMin_cases compar a h N).resolve_left hmin
    obtain ⟨-, hle, hlt⟩ := heapifyMin_le hK a h N
    have o' := o.swap (by simp; omega) ⟨hm0, hmh⟩ (getElem?_map_key (by omega))
      (getElem?_map_key (by omega)) (hlt hmin) fun c u hc hch hu => by
        have hcl : c < a.length := by simpa using (List.getElem?_eq_some_iff.mp hu).1
        rw [getElem?_map_key hcl] at hu
        rw [← Option.some.inj hu]
        exact hle c hc hch (by omega)
    rw [← map_swap] at o'
    obtain ⟨hheap, hperm⟩ := ih o' (by rw [swap, length_swapAt, hN])
    exact ⟨hheap, hperm.trans swapAt_perm⟩

/-- `heapifyup` from a hole of `UpOrder` on the keys makes the keys a heap and moves entries
only. -/
theorem heapifyup_spec (a : List α) (i : ℕ) (o : UpOrder (a.map key) i) (hi : i < a.length) :
    IsHeap ((heapifyup compar a i).map key) ∧ (heapifyup compar a i).Perm a := by
  fun_induction heapifyup compar a i with
  | case1 a =>
    exact ⟨o.isHeap fun _ _ h => absurd h (lt_irrefl 0), List.Perm.refl a⟩
  | case2 a i hi0 hge =>
    -- the entry is at least its parent: the hole is closed
    refine ⟨o.isHeap fun x y _ hx hy => ?_, List.Perm.refl a⟩
    rw [getElem?_map_key hi] at hx
    rw [getElem?_map_key (by omega)] at hy
    rw [← Option.some.inj hx, ← Option.some.inj hy]
    exact not_lt.mp fun h => (not_lt.mpr hge) ((hK.neg_iff _ _).mpr h)
  | case3 a i hi0 hlt ih =>
    have o' := o.swap (Nat.pos_of_ne_zero hi0) (by simpa using hi) (getElem?_map_key hi)
      (getElem?_map_key (by omega)) ((hK.neg_iff _ _).mp (lt_of_not_ge hlt))
    rw [← map_swap] at o'
    obtain ⟨hheap, hperm⟩ := ih o' (by rw [swap, length_swapAt]; omega)
    exact ⟨hheap, hperm.trans swapAt_perm⟩

/-- The loop of `ptrheap_create`: after position `i`, everything from `i` on is ordered. -/
theorem createLoop_spec {N : ℕ} :
    ∀ (i : ℕ) (a : List α), HeapFrom i (a.map key) → a.length = N →
      IsHeap ((createLoop compar N a i).map key) ∧ (createLoop compar N a i).Perm a
  | 0, a, ha, _ => ⟨ha, List.Perm.refl a⟩
  | i + 1, a, ha, hN => by
    obtain ⟨hheap, hperm⟩ := heapify_spec hK a i ha.downOrder hN
    obtain ⟨hheap', hperm'⟩ := createLoop_spec i _ hheap (by rw [hperm.length_eq, hN])
    exact ⟨hheap', hperm'.trans hperm⟩

/-! ## The sift down of `ptrheap_delete` -/

/-- The search for the minimum over `N + 1` entries finds what it finds over `N` when entry `N`
has the key of entry `i`: `compar` finds that entry smaller neither than `i` nor than a child
smaller than `i`. -/
theorem heapifyMin_stale {b : List α} {i N : ℕ}
    (hcopy : key (ptrlistGet b N) = key (ptrlistGet b i)) :
    heapifyMin compar b i (N + 1) = heapifyMin compar b i N := by
  unfold heapifyMin
  dsimp only
  simp only [gt_iff_lt, hK.pos_iff]
  have e₁ : (2 * i + 1 < N + 1 ∧ key (ptrlistGet b (2 * i + 1)) < key (ptrlistGet b i)) ↔
      (2 * i + 1 < N ∧ key (ptrlistGet b (2 * i + 1)) < key (ptrlistGet b i)) := by
    refine ⟨fun ⟨h, hk⟩ => ⟨?_, hk⟩, fun ⟨h, hk⟩ => ⟨by omega, hk⟩⟩
    rcases Nat.lt_succ_iff_lt_or_eq.mp h with h | h
    · exact h
    · rw [h, hcopy] at hk
      exact absurd hk (lt_irrefl _)
  -- the second test compares with the entry the first one chose, whose key is at most that of `i`
  have e₂ : ∀ m, key (ptrlistGet b m) ≤ key (ptrlistGet b i) →
      ((2 * i + 2 < N + 1 ∧ key (ptrlistGet b (2 * i + 2)) < key (ptrlistGet b m)) ↔
        (2 * i + 2 < N ∧ key (ptrlistGet b (2 * i + 2)) < key (ptrlistGet b m))) := by
    intro m hm
    refine ⟨fun ⟨h, hk⟩ => ⟨?_, hk⟩, fun ⟨h, hk⟩ => ⟨by omega, hk⟩⟩
    rcases Nat.lt_succ_iff_lt_or_eq.mp h with h | h
    · exact h
    · rw [h, hcopy] at hk
      exact absurd (hk.trans_le hm) (lt_irrefl _)
  by_cases h₁ : 2 * i + 1 < N ∧ key (ptrlistGet b (2 * i + 1)) < key (ptrlistGet b i)
  · rw [if_pos (e₁.mpr h₁), if_pos h₁, if_congr (e₂ _ h₁.2.le) rfl rfl]
  · rw [if_neg (mt e₁.mp h₁), if_neg h₁, if_congr (e₂ i (le_refl _)) rfl rfl]

omit hK in
theorem dropLast_append_ptrlistGet {b : List α} {N : ℕ} (hb : b.length = N + 1) :
    b.dropLast ++ [ptrlistGet b N] = b := by
  have hne : b ≠ [] := List.ne_nil_of_length_pos (by omega)
  conv_rhs => rw [← List.dropLast_append_getLast hne]
  rw [List.getLast_eq_getElem, ptrlistGet, List.getD_eq_getElem _ _ (by omega)]
  simp [hb]

/-- With entry `N` a copy of the key of entry `i`, the search over the first `N` entries alone
finds what the search over `N + 1` does. -/
theorem heapifyMin_dropLast {b : List α} {i N : ℕ} (hb : b.length = N + 1)
    (hcopy : key (ptrlistGet b N) = key (ptrlistGet b i)) :
    heapifyMin compar b.dropLast i N = heapifyMin compar b i (N + 1) := by
  rw [heapifyMin_congr compar fun j hj => ptrlistGet_dropLast (by omega),
    heapifyMin_stale hK hcopy]

/-- `ptrheap_delete`'s sift down from `i` over `N + 1` entries, where entry `N` has the key of the
entry at `i`, is the sift over the first `N` entries with entry `N` left where it is. -/
theorem heapify_stale {N : ℕ} (b : List α) (i : ℕ) (hb : b.length = N + 1) (hi : i < N)
    (hcopy : key (ptrlistGet b N) = key (ptrlistGet b i)) :
    heapify compar b i (N + 1) = heapify compar b.dropLast i N ++ [ptrlistGet b N] := by
  fun_induction heapify compar b i (N + 1) with
  | case1 b i hstop =>
    -- nothing moves, on either side
    rw [heapify.eq_1 compar b.dropLast, if_pos ((heapifyMin_dropLast hK hb hcopy).trans hstop),
      dropLast_append_ptrlistGet hb]
  | case2 b i hmove ih =>
    -- the same child moves up on both sides; the copy at `N` is neither it nor its parent
    have hmin := heapifyMin_dropLast hK hb hcopy
    obtain ⟨hm0, hmi, hmN⟩ := (heapifyMin_cases compar b.dropLast i N).resolve_left (hmin ▸ hmove)
    rw [hmin] at hm0 hmi hmN
    set m := heapifyMin compar b i (N + 1)
    have hswap : swap b m i = swap b.dropLast m i ++ [ptrlistGet b N] := by
      conv_lhs => rw [← dropLast_append_ptrlistGet hb]
      exact swap_append _ (by simp [hb]; omega) (by simp [hb]; omega)
    have hN' : ptrlistGet (swap b m i) N = ptrlistGet b N :=
      ptrlistGet_eq_of_getElem? (swapAt_other (by omega) (by omega))
    have hm' : ptrlistGet (swap b m i) m = ptrlistGet b i :=
      ptrlistGet_eq_of_getElem? (swapAt_left (by omega) (by omega))
    have hdl' : (swap b m i).dropLast = swap b.dropLast m i := by
      rw [hswap, List.dropLast_concat]
    rw [ih (by rw [swap, length_swapAt, hb]) hmN (by rw [hN', hm', hcopy]), hN', hdl',
      heapify.eq_1 compar b.dropLast, hmin, if_neg hmove]

/-- What `ptrheap_delete` leaves once its last position is dropped, where `rc` is not that
position: the last entry copied into `rc` of the shorter array, sifted up if `compar` finds it
smaller than its parent and down if not.  The swap before `heapifyup` in the code is the first
step of `heapifyup`, and the sift down never moves the copy left at the end. -/
theorem deleteElems_dropLast {a : List α} {N rc : ℕ} (hN : a.length = N + 1) (hrc : rc < N) :
    (deleteElems compar a (N + 1) rc).dropLast =
      if rc > 0 ∧ compar (ptrlistGet (a.set rc (ptrlistGet a N)).dropLast rc)
          (ptrlistGet (a.set rc (ptrlistGet a N)).dropLast ((rc - 1) / 2)) < 0 then
        heapifyup compar (a.set rc (ptrlistGet a N)).dropLast rc
      else heapify compar (a.set rc (ptrlistGet a N)).dropLast rc N := by
  unfold deleteElems
  rw [Nat.add_sub_cancel, if_pos (by omega)]
  dsimp only
  set x := ptrlistGet a N with hx
  set b := a.set rc x with hbdef
  have hbl : b.length = N + 1 := by rw [hbdef, List.length_set, hN]
  -- the tests read positions below `N`, where `b` and `b.dropLast` agree
  have hcond : (rc > 0 ∧ compar (ptrlistGet b rc) (ptrlistGet b ((rc - 1) / 2)) < 0) ↔
      (rc > 0 ∧ compar (ptrlistGet b.dropLast rc) (ptrlistGet b.dropLast ((rc - 1) / 2)) < 0) := by
    rw [ptrlistGet_dropLast (by omega), ptrlistGet_dropLast (by omega)]
  by_cases hup : rc > 0 ∧ compar (ptrlistGet b rc) (ptrlistGet b ((rc - 1) / 2)) < 0
  · rw [if_pos hup, if_pos (hcond.mp hup)]
    conv_lhs => rw [← dropLast_append_ptrlistGet hbl]
    rw [swap_append _ (by simp [hbl]; omega) (by simp [hbl]; omega),
      heapifyup_append compar _ _ _ (by rw [swap, length_swapAt]; simp [hbl]; omega),
      List.dropLast_concat, heapifyup.eq_1 compar b.dropLast, if_neg (by omega),
      if_neg (not_le.mpr (hcond.mp hup).2)]
  · rw [if_neg hup, if_neg (mt hcond.mpr hup)]
    -- the copy at the end is the entry sifted down
    have hcopy : ptrlistGet b N = ptrlistGet b rc := by
      have hN' : ptrlistGet b N = x := ptrlistGet_eq_of_getElem? (List.getElem?_set_ne (by omega))
      rw [hN', hbdef, ptrlistGet, List.getD_eq_getElem?_getD, List.getElem?_set_self (by omega),
        Option.getD_some]
    rw [heapify_stale hK b rc hbl hrc (congrArg key hcopy), List.dropLast_concat]

omit hK in
theorem coe_eraseIdx [DecidableEq α] {a : List α} {rc : ℕ} (hrc : rc < a.length) :
    ((a.eraseIdx rc : List α) : Multiset α) = (a : Multiset α).erase (ptrlistGet a rc) := by
  rw [← Multiset.coe_eq_coe.mpr (List.getElem_cons_eraseIdx_perm hrc), ← Multiset.cons_coe,
    ptrlistGet, List.getD_eq_getElem _ _ hrc, Multiset.erase_cons_head]

/-- Each branch of `ptrheap_delete` leaves, once the last position is dropped, a heap of the
entries other than entry `rc`. -/
theorem deleteElems_spec {a : List α} (ha : IsHeap (a.map key)) {rc : ℕ} (hrc : rc < a.length) :
    IsHeap ((deleteElems compar a a.length rc).dropLast.map key) ∧
      (deleteElems compar a a.length rc).dropLast.Perm (a.eraseIdx rc) := by
  obtain ⟨N, hN⟩ : ∃ N, a.length = N + 1 := ⟨a.length - 1, by omega⟩
  unfold deleteElems
  rw [hN, Nat.add_sub_cancel]
  by_cases hlast : rc = N
  · -- the entry deleted is the last: the array only shrinks
    rw [if_neg (not_not.mpr hlast), List.map_dropLast, hlast,
      show N = a.length - 1 by omega, List.eraseIdx_length_sub_one]
    exact ⟨ha.dropLast, List.Perm.refl _⟩
  rw [if_pos hlast]
  dsimp only
  set x := ptrlistGet a N with hx
  set b := a.set rc x with hbdef
  have hbl : b.length = N + 1 := by rw [hbdef, List.length_set, hN]
  have hperm : b.dropLast.Perm (a.eraseIdx rc) := by
    rw [hbdef, hx, show N = a.length - 1 by omega, ptrlistGet, List.getD_eq_getElem _ _ (by omega)]
    exact Serverpool.dropLast_set_last_perm hrc
  -- the array without its last position is that of the heap with entry `rc` replaced
  have hdl : b.dropLast.map key = (a.dropLast.map key).set rc (key x) := by
    simp [hbdef, List.dropLast_eq_take, List.take_set, List.map_set]
  have hdlen : rc < b.dropLast.length := by simp [hbl]; omega
  have ha' : IsHeap (a.dropLast.map key) := by rw [List.map_dropLast]; exact ha.dropLast
  have hget : ∀ j < N, (a.dropLast.map key)[j]? = some (key (ptrlistGet a j)) := fun j hj => by
    rw [List.getElem?_map, List.getElem?_dropLast, if_pos (by omega), ← List.getElem?_map,
      getElem?_map_key (by omega)]
  have hb_rc : ptrlistGet b rc = x := by
    rw [hbdef, ptrlistGet, List.getD_eq_getElem?_getD, List.getElem?_set_self hrc, Option.getD_some]
  have hb_p : 0 < rc → ptrlistGet b ((rc - 1) / 2) = ptrlistGet a ((rc - 1) / 2) := fun h0 =>
    ptrlistGet_eq_of_getElem? (List.getElem?_set_ne (by omega))
  by_cases hup : rc > 0 ∧ compar (ptrlistGet b rc) (ptrlistGet b ((rc - 1) / 2)) < 0
  · -- the copy is smaller than its parent: it moves up, away from the last position
    rw [if_pos hup]
    have hkx : key x ≤ key (ptrlistGet a rc) := by
      have hlt := (hK.neg_iff _ _).mp hup.2
      rw [hb_rc, hb_p hup.1] at hlt
      exact hlt.le.trans (ha rc _ _ hup.1 (Nat.zero_le _) (getElem?_map_key hrc)
        (getElem?_map_key (by omega)))
    have o : UpOrder (b.dropLast.map key) rc := by
      rw [hdl]
      exact ha'.upOrder_set (hget rc (by omega)) hkx
    have hup' : heapifyup compar b.dropLast rc =
        heapifyup compar (swap b.dropLast rc ((rc - 1) / 2)) ((rc - 1) / 2) := by
      rw [heapifyup.eq_1 compar b.dropLast, if_neg (by omega), ptrlistGet_dropLast (by omega),
        ptrlistGet_dropLast (by omega), if_neg (not_le.mpr hup.2)]
    have happ : heapifyup compar (swap b rc ((rc - 1) / 2)) ((rc - 1) / 2) =
        heapifyup compar b.dropLast rc ++ [ptrlistGet b N] := by
      conv_lhs => rw [← dropLast_append_ptrlistGet hbl]
      rw [swap_append _ hdlen (by omega),
        heapifyup_append compar _ _ _ (by rw [swap, length_swapAt]; omega), hup']
    obtain ⟨hheap, hp⟩ := heapifyup_spec hK _ rc o hdlen
    rw [happ, List.dropLast_concat]
    exact ⟨hheap, hp.trans hperm⟩
  · -- the copy is at least its parent: it moves down, never onto the copy in the last position
    rw [if_neg hup]
    have hkx : ∀ y, 0 < rc → (a.dropLast.map key)[(rc - 1) / 2]? = some y → y ≤ key x := by
      intro y h0 hy
      rw [hget _ (by omega)] at hy
      rw [← Option.some.inj hy, ← hb_rc, ← hb_p h0]
      exact not_lt.mp fun h => hup ⟨h0, (hK.neg_iff _ _).mpr h⟩
    have o : DownOrder 0 (b.dropLast.map key) rc := by
      rw [hdl]
      exact ha'.downOrder_set (hget rc (by omega)) hkx
    have hcopy : key (ptrlistGet b N) = key (ptrlistGet b rc) := by
      rw [hb_rc, hx]
      exact congrArg key (ptrlistGet_eq_of_getElem? (List.getElem?_set_ne (by omega)))
    rw [heapify_stale hK b rc hbl (by omega) hcopy, List.dropLast_concat]
    obtain ⟨hheap, hp⟩ := heapify_spec hK (N := N) b.dropLast rc o (by simp [hbl])
    exact ⟨hheap, hp.trans hperm⟩

end Ptrheap

/-! ## The operations against a multiset -/

section Holds

variable {β : Type*} [LinearOrder β] {key : α → β}

/-- The heap `H` holds the multiset `M` by `key`: `compar` orders by `key`, `nelems` counts the
entries, their keys form a heap, and the entries are those of `M`. -/
structure Ptrheap.Holds (key : α → β) (H : Ptrheap α) (M : Multiset α) : Prop where
  keyed : Keyed H.compar key
  nelems_eq : H.nelems = H.elems.length
  heap : IsHeap (H.elems.map key)
  elems_eq : (H.elems : Multiset α) = M

theorem ptrheapCreate_holds {compar : α → α → ℤ} (hK : Keyed compar key) (ptrs : List α) :
    (ptrheapCreate compar ptrs).Holds key ptrs := by
  have h₀ : HeapFrom ptrs.length (ptrs.map key) := by
    simpa using heapFrom_length (ptrs.map key)
  obtain ⟨hheap, hperm⟩ := Ptrheap.createLoop_spec hK ptrs.length ptrs h₀ rfl
  exact ⟨hK, hperm.length_eq.symm, hheap, Multiset.coe_eq_coe.mpr hperm⟩

theorem ptrheapInit_holds {compar : α → α → ℤ} (hK : Keyed compar key) :
    (ptrheapInit compar).Holds key 0 :=
  ptrheapCreate_holds hK []

namespace Ptrheap.Holds

open Ptrheap

variable {H : Ptrheap α} {M : Multiset α}

/-- `ptrheap_getmin` returns NULL exactly on an empty heap. -/
theorem getmin_eq_none (hH : H.Holds key M) : ptrheapGetmin H = none ↔ M = 0 := by
  rw [← hH.elems_eq, ptrheapGetmin, hH.nelems_eq]
  simp [List.length_eq_zero_iff]

/-- `ptrheap_getmin` returns an entry of least key. -/
theorem getmin_spec (hH : H.Holds key M) {m : α} (h : ptrheapGetmin H = some m) :
    m ∈ M ∧ ∀ y ∈ M, key m ≤ key y := by
  rw [ptrheapGetmin] at h
  split_ifs at h with h0
  have hlen : 0 < H.elems.length := by rw [← hH.nelems_eq]; omega
  rw [← Option.some.inj h, ← hH.elems_eq]
  refine ⟨Multiset.mem_coe.mpr ?_, fun y hy => ?_⟩
  · rw [ptrlistGet, List.getD_eq_getElem _ _ hlen]
    exact List.getElem_mem hlen
  · -- the root's key is at most every key of the heap
    obtain ⟨k, hk, rfl⟩ := List.getElem_of_mem (Multiset.mem_coe.mp hy)
    exact hH.heap.root_le (getElem?_map_key hlen) k _
      (by rw [List.getElem?_map, List.getElem?_eq_getElem hk]; rfl)

theorem add (hH : H.Holds key M) (x : α) : (ptrheapAdd H x).Holds key (x ::ₘ M) := by
  have hlen : H.nelems + 1 - 1 < (H.elems ++ [x]).length := by simp [hH.nelems_eq]
  have o : UpOrder ((H.elems ++ [x]).map key) (H.nelems + 1 - 1) := by
    rw [List.map_append, List.map_singleton, Nat.add_sub_cancel, hH.nelems_eq,
      ← List.length_map (f := key)]
    exact hH.heap.upOrder_append (key x)
  obtain ⟨hheap, hperm⟩ := heapifyup_spec hH.keyed _ _ o hlen
  refine ⟨hH.keyed, ?_, hheap, ?_⟩
  · show H.nelems + 1 = (heapifyup H.compar (H.elems ++ [x]) (H.nelems + 1 - 1)).length
    rw [hperm.length_eq, List.length_append, hH.nelems_eq, List.length_singleton]
  · show ((heapifyup H.compar (H.elems ++ [x]) (H.nelems + 1 - 1) : List α) : Multiset α) =
      x ::ₘ M
    rw [Multiset.coe_eq_coe.mpr (hperm.trans (List.perm_append_singleton x H.elems)),
      ← Multiset.cons_coe, hH.elems_eq]

/-- `ptrheap_delete` takes out the entry at `rc`, whatever position `rc` is. -/
theorem delete [DecidableEq α] (hH : H.Holds key M) {rc : ℕ} (hrc : rc < H.nelems) :
    ∃ H', ptrheapDelete H rc = some H' ∧ H'.Holds key (M.erase (ptrlistGet H.elems rc)) := by
  refine ⟨_, if_pos hrc, ?_⟩
  rw [hH.nelems_eq] at hrc ⊢
  obtain ⟨hheap, hperm⟩ := deleteElems_spec hH.keyed hH.heap hrc
  refine ⟨hH.keyed, ?_, hheap, ?_⟩
  · show H.elems.length - 1 = (deleteElems H.compar H.elems H.elems.length rc).dropLast.length
    rw [hperm.length_eq, List.length_eraseIdx_of_lt hrc]
  · show (((deleteElems H.compar H.elems H.elems.length rc).dropLast : List α) : Multiset α) = _
    rw [Multiset.coe_eq_coe.mpr hperm, coe_eraseIdx hrc, hH.elems_eq]

/-- `ptrheap_deletemin` takes out the entry `ptrheap_getmin` returns. -/
theorem deletemin [DecidableEq α] (hH : H.Holds key M) {m : α} (hm : ptrheapGetmin H = some m) :
    ∃ H', ptrheapDeletemin H = some H' ∧ H'.Holds key (M.erase m) := by
  rw [ptrheapGetmin] at hm
  split_ifs at hm with h0
  rw [← Option.some.inj hm]
  exact hH.delete (Nat.pos_of_ne_zero h0)

/-- `ptrheap_decrease` after the entry at `rc` is replaced by one of no larger key. -/
theorem decrease [DecidableEq α] (hH : H.Holds key M) {rc : ℕ} (hrc : rc < H.nelems) {x : α}
    (hx : key x ≤ key (ptrlistGet H.elems rc)) :
    (ptrheapDecrease { H with elems := H.elems.set rc x } rc).Holds key
      (x ::ₘ M.erase (ptrlistGet H.elems rc)) := by
  rw [hH.nelems_eq] at hrc
  have o : UpOrder ((H.elems.set rc x).map key) rc := by
    rw [List.map_set]
    exact hH.heap.upOrder_set (getElem?_map_key hrc) hx
  obtain ⟨hheap, hperm⟩ := heapifyup_spec hH.keyed _ rc o (by simpa using hrc)
  refine ⟨hH.keyed, ?_, hheap, ?_⟩
  · show H.nelems = (heapifyup H.compar (H.elems.set rc x) rc).length
    rw [hperm.length_eq, List.length_set, hH.nelems_eq]
  · show ((heapifyup H.compar (H.elems.set rc x) rc : List α) : Multiset α) = _
    rw [Multiset.coe_eq_coe.mpr (hperm.trans (List.set_perm_cons_eraseIdx hrc x)),
      ← Multiset.cons_coe, coe_eraseIdx hrc, hH.elems_eq]

/-- `ptrheap_increase` after the entry at `rc` is replaced by one of no smaller key. -/
theorem increase [DecidableEq α] (hH : H.Holds key M) {rc : ℕ} (hrc : rc < H.nelems) {x : α}
    (hx : key (ptrlistGet H.elems rc) ≤ key x) :
    (ptrheapIncrease { H with elems := H.elems.set rc x } rc).Holds key
      (x ::ₘ M.erase (ptrlistGet H.elems rc)) := by
  rw [hH.nelems_eq] at hrc
  have o : DownOrder 0 ((H.elems.set rc x).map key) rc := by
    rw [List.map_set]
    refine hH.heap.downOrder_set (getElem?_map_key hrc) fun y h0 hy => ?_
    exact (hH.heap rc _ y h0 (Nat.zero_le _) (getElem?_map_key hrc) hy).trans hx
  obtain ⟨hheap, hperm⟩ := heapify_spec hH.keyed (N := H.nelems) _ rc o
    (by rw [List.length_set, hH.nelems_eq])
  refine ⟨hH.keyed, ?_, hheap, ?_⟩
  · show H.nelems = (heapify H.compar (H.elems.set rc x) rc H.nelems).length
    rw [hperm.length_eq, List.length_set, hH.nelems_eq]
  · show ((heapify H.compar (H.elems.set rc x) rc H.nelems : List α) : Multiset α) = _
    rw [Multiset.coe_eq_coe.mpr (hperm.trans (List.set_perm_cons_eraseIdx hrc x)),
      ← Multiset.cons_coe, coe_eraseIdx hrc, hH.elems_eq]

omit [Inhabited α] in
/-- The heap keeps holding its records when its compare function becomes one that orders by new
keys that are, on its entries, the old ones: the caller has written only records outside it. -/
theorem congr {key' : α → β} (hH : H.Holds key M) {compar' : α → α → ℤ} (hK' : Keyed compar' key')
    (hkey : ∀ x ∈ H.elems, key' x = key x) :
    ({ H with compar := compar' } : Ptrheap α).Holds key' M where
  keyed := hK'
  nelems_eq := hH.nelems_eq
  heap := by
    show IsHeap (H.elems.map key')
    rw [List.map_congr_left hkey]
    exact hH.heap
  elems_eq := hH.elems_eq

/-- `ptrheap_increase` after the record at `rc` has changed in place to a no smaller key, with the
compare function reading the new keys. -/
theorem increase_key (hH : H.Holds key M) (hnd : H.elems.Nodup) {rc : ℕ} (hrc : rc < H.nelems)
    {key' : α → β} {compar' : α → α → ℤ} (hK' : Keyed compar' key')
    (hkey : ∀ x ∈ H.elems, x ≠ ptrlistGet H.elems rc → key' x = key x)
    (hx : key (ptrlistGet H.elems rc) ≤ key' (ptrlistGet H.elems rc)) :
    (ptrheapIncrease { H with compar := compar' } rc).Holds key' M := by
  rw [hH.nelems_eq] at hrc
  -- the new keys are the old ones with that of the entry at `rc` replaced
  have hmap : H.elems.map key' = (H.elems.map key).set rc (key' (ptrlistGet H.elems rc)) := by
    refine List.ext_getElem? fun j => ?_
    rw [List.getElem?_set]
    by_cases hj : rc = j
    · rw [if_pos hj, if_pos (by simpa using hrc), ← hj, getElem?_map_key hrc]
    · rw [if_neg hj]
      rcases Nat.lt_or_ge j H.elems.length with hjl | hjl
      · rw [getElem?_map_key hjl, getElem?_map_key hjl,
          hkey _ (ptrlistGet_mem hjl) fun h => hj (ptrlistGet_injective hnd hjl hrc h).symm]
      · simp [hjl]
  have o : DownOrder 0 (H.elems.map key') rc := by
    rw [hmap]
    refine hH.heap.downOrder_set (getElem?_map_key hrc) fun y h0 hy => ?_
    exact (hH.heap rc _ y h0 (Nat.zero_le _) (getElem?_map_key hrc) hy).trans hx
  obtain ⟨hheap, hperm⟩ := heapify_spec hK' (N := H.nelems) _ rc o hH.nelems_eq.symm
  refine ⟨hK', ?_, hheap, ?_⟩
  · show H.nelems = (heapify compar' H.elems rc H.nelems).length
    rw [hperm.length_eq, hH.nelems_eq]
  · show ((heapify compar' H.elems rc H.nelems : List α) : Multiset α) = M
    rw [Multiset.coe_eq_coe.mpr hperm, hH.elems_eq]

end Ptrheap.Holds

end Holds

/-! ## Every run of calls -/

/-- A heap with the records its caller has added and not deleted, each as the caller last
changed it. -/
structure PtrheapRun (α : Type*) where
  heap : Ptrheap α
  records : Multiset α

namespace PtrheapRun

open Ptrheap

variable [DecidableEq α] {β : Type*} [LinearOrder β] (key : α → β)

/-- One call, under the condition `ptrheap.h` puts on it: `ptrheap_delete` of a position of the
heap, and `ptrheap_decrease` or `ptrheap_increase` after the record at `rc` has changed to `x`,
whose key is no larger, or no smaller, than before. -/
inductive Step : PtrheapRun α → PtrheapRun α → Prop
  | add (R : PtrheapRun α) (x : α) : Step R ⟨ptrheapAdd R.heap x, x ::ₘ R.records⟩
  | delete (R : PtrheapRun α) (rc : ℕ) (H' : Ptrheap α) (h : ptrheapDelete R.heap rc = some H') :
      Step R ⟨H', R.records.erase (ptrlistGet R.heap.elems rc)⟩
  | decrease (R : PtrheapRun α) (rc : ℕ) (x : α) (hrc : rc < R.heap.nelems)
      (hx : key x ≤ key (ptrlistGet R.heap.elems rc)) :
      Step R ⟨ptrheapDecrease { R.heap with elems := R.heap.elems.set rc x } rc,
        x ::ₘ R.records.erase (ptrlistGet R.heap.elems rc)⟩
  | increase (R : PtrheapRun α) (rc : ℕ) (x : α) (hrc : rc < R.heap.nelems)
      (hx : key (ptrlistGet R.heap.elems rc) ≤ key x) :
      Step R ⟨ptrheapIncrease { R.heap with elems := R.heap.elems.set rc x } rc,
        x ::ₘ R.records.erase (ptrlistGet R.heap.elems rc)⟩

variable {key}

theorem Step.holds {R R' : PtrheapRun α} (hR : R.heap.Holds key R.records) (h : Step key R R') :
    R'.heap.Holds key R'.records := by
  cases h with
  | add x => exact hR.add x
  | delete rc H' hdel =>
    have hrc : rc < R.heap.nelems := by
      by_contra hn
      simp [ptrheapDelete, hn] at hdel
    obtain ⟨H'', hdel', hH''⟩ := hR.delete hrc
    rw [hdel, Option.some.injEq] at hdel'
    rwa [hdel']
  | decrease rc x hrc hx => exact hR.decrease hrc hx
  | increase rc x hrc hx => exact hR.increase hrc hx

/-- Over every run of calls from `ptrheap_init` with a compare function that orders by `key`,
the heap holds exactly the records added and not deleted: `nelems` counts them, their keys form a
heap, and `ptrheap_getmin` returns one of least key, and NULL only when there is none. -/
theorem reachable_ptrheapHolds {compar : α → α → ℤ} (hK : Keyed compar key) {R : PtrheapRun α}
    (hR : Reachable (· = ⟨ptrheapInit compar, 0⟩) (Step key) R) :
    R.heap.Holds key R.records ∧ (ptrheapGetmin R.heap = none ↔ R.records = 0) ∧
      ∀ m, ptrheapGetmin R.heap = some m → m ∈ R.records ∧ ∀ y ∈ R.records, key m ≤ key y := by
  have hH : R.heap.Holds key R.records := by
    refine hR.invariant (fun R₀ h₀ => ?_) fun _ _ hI hs => hs.holds hI
    rw [h₀]
    exact ptrheapInit_holds hK
  exact ⟨hH, hH.getmin_eq_none, fun m hm => hH.getmin_spec hm⟩

end PtrheapRun

/-- Natural numbers compared as `compar` functions do: -1, 0 or 1. -/
def natCompar (x y : ℕ) : ℤ := if x < y then -1 else if y < x then 1 else 0

theorem keyed_natCompar : Keyed natCompar id where
  neg_iff x y := by unfold natCompar; split_ifs <;> simp <;> omega
  pos_iff x y := by unfold natCompar; split_ifs <;> simp <;> omega

/-- `ptrheap_init`, then 5, 3, 8, 1, 9, 4 and 7 added: three full levels. -/
def sevenAdds : PtrheapRun ℕ :=
  [5, 3, 8, 1, 9, 4, 7].foldl (fun R x => ⟨ptrheapAdd R.heap x, x ::ₘ R.records⟩)
    ⟨ptrheapInit natCompar, 0⟩

/-- `sevenAdds`, then the record 3 deleted at the inner position 1, which moves 7 from the last
position down past 5 while its copy is still there, and then the least record, 1, changed in place
to 6 and increased. -/
def innerDeleteRun : PtrheapRun ℕ :=
  let R : PtrheapRun ℕ := ⟨(ptrheapDelete sevenAdds.heap 1).getD sevenAdds.heap,
    sevenAdds.records.erase (Ptrheap.ptrlistGet sevenAdds.heap.elems 1)⟩
  ⟨ptrheapIncrease { R.heap with elems := R.heap.elems.set 0 6 } 0,
    6 ::ₘ R.records.erase (Ptrheap.ptrlistGet R.heap.elems 0)⟩

theorem innerDeleteRun_reachable :
    Reachable (· = ⟨ptrheapInit natCompar, 0⟩) (PtrheapRun.Step id) innerDeleteRun := by
  have h₀ : Reachable (· = ⟨ptrheapInit natCompar, 0⟩) (PtrheapRun.Step id)
      (⟨ptrheapInit natCompar, 0⟩ : PtrheapRun ℕ) := .init rfl
  have h₇ : Reachable (· = ⟨ptrheapInit natCompar, 0⟩) (PtrheapRun.Step id) sevenAdds :=
    ((((((h₀.tail (.add _ 5)).tail (.add _ 3)).tail (.add _ 8)).tail (.add _ 1)).tail
      (.add _ 9)).tail (.add _ 4)).tail (.add _ 7)
  have h₈ := h₇.tail (.delete _ 1 _ rfl)
  exact h₈.tail (.increase _ 0 6 (by with_unfolding_all decide) (by with_unfolding_all decide))

theorem innerDeleteRun_ptrheapHolds :
    innerDeleteRun.heap.elems = [4, 5, 6, 7, 9, 8] ∧
      innerDeleteRun.heap.Holds id innerDeleteRun.records ∧
      (ptrheapGetmin innerDeleteRun.heap = none ↔ innerDeleteRun.records = 0) ∧
      ∀ m, ptrheapGetmin innerDeleteRun.heap = some m →
        m ∈ innerDeleteRun.records ∧ ∀ y ∈ innerDeleteRun.records, id m ≤ id y :=
  ⟨by with_unfolding_all decide,
    PtrheapRun.reachable_ptrheapHolds keyed_natCompar innerDeleteRun_reachable⟩

end Kivaloo.Datastruct
