import Mathlib

/-!
# Binary heaps in an array

A binary heap keeps a tree in the positions of an array: the children of position `i` are
`2 * i + 1` and `2 * i + 2`, so the parent of a position `j > 0` is `(j - 1) / 2`.  The array is
a heap when every entry is at least its parent (`IsHeap`); then the entry at position 0 is the
least of all (`IsHeap.root_le`).

Sifting restores the order after one entry has changed, by swapping it with a neighbour
(`swapAt`) until it is in place.  While it moves, the array is ordered everywhere except around
the moving entry, the hole: `UpOrder` says what holds while the entry moves up, `DownOrder`
while it moves down.  Each has a lemma for one swap (`UpOrder.swap`, `DownOrder.swap`) and one
for the exit of the loop (`UpOrder.isHeap`, `DownOrder.heapFrom`).  A sift down may start in
the middle of the array and order only what lies below its start (`HeapFrom lo`), which is how
a heap is built bottom up.

Removing an entry from the middle of a heap writes another value into its place (`List.set`):
a smaller value leaves the order broken only above the hole (`IsHeap.upOrder_set`), a value at
least the parent's only below it (`IsHeap.downOrder_set`), so one sift of either kind repairs it.

The abstract side is a priority queue: a multiset with its least element (`PQueue.min?`),
which the root of a heap holding the multiset is (`IsHeap.min?_eq`).
-/

namespace Kivaloo.Lib

variable {α : Type*}

/-! ## Swapping two entries -/

/-- The list with the entries at `i` and `j` exchanged; unchanged if one is out of range. -/
def swapAt (a : List α) (i j : ℕ) : List α :=
  match a[i]?, a[j]? with
  | some x, some y => (a.set i y).set j x
  | _, _ => a

section Swap

variable {a : List α} {i j : ℕ}

@[simp] theorem length_swapAt : (swapAt a i j).length = a.length := by
  unfold swapAt
  split <;> simp

theorem swapAt_perm : (swapAt a i j).Perm a := by
  unfold swapAt
  split
  · rename_i x y hx hy
    obtain ⟨hi, rfl⟩ := List.getElem?_eq_some_iff.mp hx
    obtain ⟨hj, rfl⟩ := List.getElem?_eq_some_iff.mp hy
    exact List.set_set_perm hi hj
  · exact List.Perm.refl a

/-- A swap of two positions within the list puts the entry of `j` at `i`. -/
@[simp] theorem swapAt_left (hi : i < a.length) (hj : j < a.length) :
    (swapAt a i j)[i]? = a[j]? := by
  unfold swapAt
  rw [List.getElem?_eq_getElem hi, List.getElem?_eq_getElem hj]
  by_cases hij : i = j
  · subst hij
    simp
  · simp [hi, Ne.symm hij]

/-- A swap of two positions within the list puts the entry of `i` at `j`. -/
@[simp] theorem swapAt_right (hi : i < a.length) (hj : j < a.length) :
    (swapAt a i j)[j]? = a[i]? := by
  unfold swapAt
  rw [List.getElem?_eq_getElem hi, List.getElem?_eq_getElem hj]
  simp [hj]

/-- A swap leaves the other positions alone. -/
theorem swapAt_other {k : ℕ} (hki : k ≠ i) (hkj : k ≠ j) : (swapAt a i j)[k]? = a[k]? := by
  unfold swapAt
  split
  · simp [Ne.symm hki, Ne.symm hkj]
  · rfl

/-- A swap commutes with a map of the entries, such as reading their keys. -/
theorem swapAt_map {β : Type*} (f : α → β) : (swapAt a i j).map f = swapAt (a.map f) i j := by
  unfold swapAt
  rcases hx : a[i]? with _ | x <;> rcases hy : a[j]? with _ | y <;>
    simp [List.getElem?_map, hx, hy, List.map_set]

end Swap

/-! ## The heap order -/

section Order

variable [LinearOrder α]

/-- Every entry whose parent is at position `lo` or beyond is at least its parent: the subtrees
rooted at `lo` and after are heaps. -/
def HeapFrom (lo : ℕ) (a : List α) : Prop :=
  ∀ j x y, 0 < j → lo ≤ (j - 1) / 2 → a[j]? = some x → a[(j - 1) / 2]? = some y → y ≤ x

/-- Every entry is at least its parent. -/
def IsHeap (a : List α) : Prop := HeapFrom 0 a

/-- The positions whose parent is `h` are its two children. -/
theorem parent_eq_iff {c h : ℕ} : (0 < c ∧ (c - 1) / 2 = h) ↔ c = 2 * h + 1 ∨ c = 2 * h + 2 := by
  omega

/-- Nothing is ordered yet past the end of the list. -/
theorem heapFrom_length (a : List α) : HeapFrom a.length a := by
  intro j x y hj hlo hx _
  have := (List.getElem?_eq_some_iff.mp hx).1
  omega

/-- The root of a heap is at most every entry. -/
theorem IsHeap.root_le {a : List α} (ha : IsHeap a) {m : α} (hm : a[0]? = some m) :
    ∀ (k : ℕ) (x : α), a[k]? = some x → m ≤ x := by
  intro k
  induction k using Nat.strong_induction_on with
  | _ k ih =>
    intro x hx
    rcases Nat.eq_zero_or_pos k with rfl | hk
    · rw [hm] at hx
      exact le_of_eq (Option.some.inj hx)
    · -- the parent is before `k`, is in the list, and is at most `x`
      have hk' := (List.getElem?_eq_some_iff.mp hx).1
      have hp : (k - 1) / 2 < a.length := by omega
      obtain ⟨y, hy⟩ : ∃ y, a[(k - 1) / 2]? = some y := ⟨_, List.getElem?_eq_getElem hp⟩
      exact (ih _ (by omega) y hy).trans (ha k x y hk (Nat.zero_le _) hx hy)

/-- What holds while the entry at `h` moves up: every other entry is at least its parent, and
the children of `h` are at least the parent of `h`. -/
structure UpOrder (a : List α) (h : ℕ) : Prop where
  except : ∀ j x y, 0 < j → j ≠ h → a[j]? = some x → a[(j - 1) / 2]? = some y → y ≤ x
  below : ∀ c x y, 0 < h → 0 < c → (c - 1) / 2 = h → a[c]? = some x →
    a[(h - 1) / 2]? = some y → y ≤ x

/-- A new entry at the end of a heap may move up. -/
theorem IsHeap.upOrder_append {a : List α} (ha : IsHeap a) (x : α) :
    UpOrder (a ++ [x]) a.length where
  except j z y hj hjn hz hy := by
    have hjl : j < a.length := by
      have := (List.getElem?_eq_some_iff.mp hz).1
      simp only [List.length_append, List.length_singleton] at this
      omega
    rw [List.getElem?_append_left hjl] at hz
    rw [List.getElem?_append_left (by omega)] at hy
    exact ha j z y hj (Nat.zero_le _) hz hy
  below c z y _ hc hcp hz _ := by
    have := (List.getElem?_eq_some_iff.mp hz).1
    simp only [List.length_append, List.length_singleton] at this
    omega

/-- One step up: the entry at `h`, smaller than its parent, is swapped with it. -/
theorem UpOrder.swap {a : List α} {h : ℕ} (o : UpOrder a h) (hh : 0 < h) (hlen : h < a.length)
    {x y : α} (hx : a[h]? = some x) (hy : a[(h - 1) / 2]? = some y) (hlt : x < y) :
    UpOrder (swapAt a h ((h - 1) / 2)) ((h - 1) / 2) := by
  have hpl : (h - 1) / 2 < a.length := by omega
  constructor
  · intro j u v hj hjp hu hv
    by_cases hjh : j = h
    · -- the pair of the hole and its old parent is now in order
      rw [hjh, swapAt_left hlen hpl, hy] at hu
      rw [hjh, swapAt_right hlen hpl, hx] at hv
      rw [← Option.some.inj hu, ← Option.some.inj hv]
      exact hlt.le
    · rw [swapAt_other hjh hjp] at hu
      by_cases hpar : (j - 1) / 2 = (h - 1) / 2
      · -- a sibling of the hole: its new parent is the smaller entry `x`
        rw [hpar, swapAt_right hlen hpl, hx] at hv
        rw [← Option.some.inj hv]
        exact hlt.le.trans (o.except j u y hj hjh hu (hpar ▸ hy))
      · by_cases hph : (j - 1) / 2 = h
        · -- a child of the hole: its new parent is the old parent `y`
          rw [hph, swapAt_left hlen hpl, hy] at hv
          rw [← Option.some.inj hv]
          exact o.below j u y hh hj hph hu hy
        · rw [swapAt_other hph hpar] at hv
          exact o.except j u v hj hjh hu hv
  · intro c u v hp0 hc hcp hu hv
    -- the children of the new hole are the old hole and its sibling, both at least `y`, and
    -- the new hole's parent was at most `y`
    rw [swapAt_other (by omega) (by omega)] at hv
    have hvy : v ≤ y := o.except _ y v hp0 (by omega) hy hv
    by_cases hch : c = h
    · rw [hch, swapAt_left hlen hpl, hy] at hu
      rw [← Option.some.inj hu]
      exact hvy
    · rw [swapAt_other hch (by omega)] at hu
      exact hvy.trans (o.except c u y hc hch hu (hcp ▸ hy))

/-- The sift up ends with a heap once the entry at `h` is at least its parent. -/
theorem UpOrder.isHeap {a : List α} {h : ℕ} (o : UpOrder a h)
    (hstop : ∀ x y, 0 < h → a[h]? = some x → a[(h - 1) / 2]? = some y → y ≤ x) : IsHeap a := by
  intro j x y hj _ hx hy
  by_cases hjh : j = h
  · subst hjh
    exact hstop x y hj hx hy
  · exact o.except j x y hj hjh hx hy

/-- What holds while the entry at `h` moves down in the part of the array from `lo`: every entry
whose parent is not `h` is at least its parent, and below `lo` the children of `h` are at least
the parent of `h`. -/
structure DownOrder (lo : ℕ) (a : List α) (h : ℕ) : Prop where
  lo_le : lo ≤ h
  parent_ge : lo < h → lo ≤ (h - 1) / 2
  except : ∀ j x y, 0 < j → lo ≤ (j - 1) / 2 → (j - 1) / 2 ≠ h → a[j]? = some x →
    a[(j - 1) / 2]? = some y → y ≤ x
  above : ∀ c x y, lo < h → 0 < c → (c - 1) / 2 = h → a[c]? = some x →
    a[(h - 1) / 2]? = some y → y ≤ x

/-- A sift down may start at `lo` when everything below `lo` is ordered. -/
theorem HeapFrom.downOrder {lo : ℕ} {a : List α} (ha : HeapFrom (lo + 1) a) :
    DownOrder lo a lo where
  lo_le := le_refl lo
  parent_ge h := absurd h (lt_irrefl lo)
  except j x y hj hlo hne hx hy := ha j x y hj (by omega) hx hy
  above _ _ _ h := absurd h (lt_irrefl lo)

/-- Dropping the last entry of a heap leaves a heap. -/
theorem IsHeap.dropLast {a : List α} (ha : IsHeap a) : IsHeap a.dropLast := by
  intro j x y hj hlo hx hy
  rw [List.getElem?_dropLast] at hx hy
  split_ifs at hx hy
  exact ha j x y hj hlo hx hy

/-- An entry of a heap replaced by one at most the old entry may move up. -/
theorem IsHeap.upOrder_set {a : List α} (ha : IsHeap a) {h : ℕ} {x z : α} (hz : a[h]? = some z)
    (hx : x ≤ z) : UpOrder (a.set h x) h where
  except j u v hj hjh hu hv := by
    rw [List.getElem?_set_ne (Ne.symm hjh)] at hu
    by_cases hp : (j - 1) / 2 = h
    · -- the parent is the new entry, below the old one
      rw [hp, List.getElem?_set_self (List.getElem?_eq_some_iff.mp hz).1] at hv
      rw [← Option.some.inj hv]
      exact hx.trans (ha j u z hj (Nat.zero_le _) hu (hp ▸ hz))
    · rw [List.getElem?_set_ne (Ne.symm hp)] at hv
      exact ha j u v hj (Nat.zero_le _) hu hv
  below c u y hh hc hcp hu hy := by
    -- a child of the old entry is above it, and it above its parent
    rw [List.getElem?_set_ne (by omega)] at hu
    rw [List.getElem?_set_ne (by omega)] at hy
    exact (ha h z y hh (Nat.zero_le _) hz hy).trans (ha c u z hc (Nat.zero_le _) hu (hcp ▸ hz))

/-- An entry of a heap replaced by one at least its parent may move down. -/
theorem IsHeap.downOrder_set {a : List α} (ha : IsHeap a) {h : ℕ} {x z : α} (hz : a[h]? = some z)
    (hx : ∀ y, 0 < h → a[(h - 1) / 2]? = some y → y ≤ x) : DownOrder 0 (a.set h x) h where
  lo_le := Nat.zero_le h
  parent_ge _ := Nat.zero_le _
  except j u v hj _ hne hu hv := by
    rw [List.getElem?_set_ne (Ne.symm hne)] at hv
    by_cases hjh : j = h
    · -- the new entry and its parent
      rw [hjh, List.getElem?_set_self (List.getElem?_eq_some_iff.mp hz).1] at hu
      rw [← Option.some.inj hu]
      exact hx v (hjh ▸ hj) (hjh ▸ hv)
    · rw [List.getElem?_set_ne (Ne.symm hjh)] at hu
      exact ha j u v hj (Nat.zero_le _) hu hv
  above c u y hh hc hcp hu hy := by
    rw [List.getElem?_set_ne (by omega)] at hu
    rw [List.getElem?_set_ne (by omega)] at hy
    exact (ha h z y hh (Nat.zero_le _) hz hy).trans (ha c u z hc (Nat.zero_le _) hu (hcp ▸ hz))

/-- A list that has the entries of a heap away from the root may be sifted down from the root:
a heap whose root is replaced, or whose root is replaced and whose last entry is dropped. -/
theorem IsHeap.downOrder_root {a b : List α} (ha : IsHeap a)
    (hb : ∀ j u, j ≠ 0 → b[j]? = some u → a[j]? = some u) : DownOrder 0 b 0 where
  lo_le := le_refl 0
  parent_ge h := absurd h (lt_irrefl 0)
  except j u v hj _ hne hu hv := ha j u v hj (Nat.zero_le _) (hb j u (by omega) hu) (hb _ v hne hv)
  above _ _ _ h := absurd h (lt_irrefl 0)

/-- One step down: the entry at `h` is swapped with its child `m`, which is smaller than it and
at most its other child. -/
theorem DownOrder.swap {lo : ℕ} {a : List α} {h m : ℕ} (o : DownOrder lo a h)
    (hlen : m < a.length) (hm : 0 < m ∧ (m - 1) / 2 = h) {x z : α} (hx : a[h]? = some x)
    (hz : a[m]? = some z) (hlt : z < x)
    (hmin : ∀ c u, 0 < c → (c - 1) / 2 = h → a[c]? = some u → z ≤ u) :
    DownOrder lo (swapAt a m h) m := by
  have hhm : h < m := by omega
  have hhl : h < a.length := by omega
  refine ⟨by have := o.lo_le; omega, fun _ => hm.2 ▸ o.lo_le, ?_, ?_⟩
  · intro j u v hj hlo hne hu hv
    by_cases hjm : j = m
    · -- the pair of `h` and `m`, now in order
      rw [hjm, swapAt_left hlen hhl, hx] at hu
      rw [hjm, hm.2, swapAt_right hlen hhl, hz] at hv
      rw [← Option.some.inj hu, ← Option.some.inj hv]
      exact hlt.le
    · by_cases hjh : j = h
      · -- `h` and its parent: the parent was at most the children of `h`
        rw [hjh, swapAt_right hlen hhl, hz] at hu
        rw [hjh, swapAt_other (by omega) (by omega)] at hv
        rw [← Option.some.inj hu]
        exact o.above m z v (by omega) hm.1 hm.2 hz hv
      · rw [swapAt_other hjm hjh] at hu
        by_cases hph : (j - 1) / 2 = h
        · -- the other child of `h`, now below `z`
          rw [hph, swapAt_right hlen hhl, hz] at hv
          rw [← Option.some.inj hv]
          exact hmin j u hj hph hu
        · rw [swapAt_other hne hph] at hv
          exact o.except j u v hj hlo hph hu hv
  · intro c u v _ hc hcp hu hv
    -- the children of `m` are below the entry `z` that now sits at `h`
    rw [swapAt_other (by omega) (by omega)] at hu
    rw [hm.2, swapAt_right hlen hhl, hz] at hv
    rw [← Option.some.inj hv]
    exact o.except c u z hc (by have := o.lo_le; omega) (by omega) hu (hcp ▸ hz)

/-- The sift down ends with the part from `lo` ordered once the entry at `h` is at most its
children. -/
theorem DownOrder.heapFrom {lo : ℕ} {a : List α} {h : ℕ} (o : DownOrder lo a h)
    (hstop : ∀ c u x, 0 < c → (c - 1) / 2 = h → a[c]? = some u → a[h]? = some x → x ≤ u) :
    HeapFrom lo a := by
  intro j u v hj hlo hu hv
  by_cases hph : (j - 1) / 2 = h
  · rw [hph] at hv
    exact hstop j u v hj hph hu hv
  · exact o.except j u v hj hlo hph hu hv

end Order

/-! ## Priority queues -/

namespace PQueue

variable [LinearOrder α]

/-- The least element of a multiset, `none` for the empty one. -/
def min? (M : Multiset α) : Option α :=
  if h : M = 0 then none else some (M.toFinset.min' (Multiset.toFinset_nonempty.mpr h))

theorem min?_eq_none {M : Multiset α} : min? M = none ↔ M = 0 := by
  unfold min?
  split <;> simp_all

theorem min?_eq_some {M : Multiset α} {m : α} : min? M = some m ↔ m ∈ M ∧ ∀ y ∈ M, m ≤ y := by
  unfold min?
  split
  · rename_i h
    simp [h]
  · rename_i h
    have hne := Multiset.toFinset_nonempty.mpr h
    constructor
    · rintro ⟨⟩
      refine ⟨Multiset.mem_toFinset.mp (M.toFinset.min'_mem hne), fun y hy => ?_⟩
      exact M.toFinset.min'_le y (Multiset.mem_toFinset.mpr hy)
    · rintro ⟨hm, hle⟩
      refine congrArg some (le_antisymm ?_ (hle _ (Multiset.mem_toFinset.mp
        (M.toFinset.min'_mem hne))))
      exact M.toFinset.min'_le m (Multiset.mem_toFinset.mpr hm)

end PQueue

/-- The root of a heap is the least element of the entries. -/
theorem IsHeap.min?_eq [LinearOrder α] {a : List α} (ha : IsHeap a) :
    PQueue.min? (a : Multiset α) = a[0]? := by
  cases h0 : a[0]? with
  | none =>
    rw [PQueue.min?_eq_none]
    have : a = [] := List.eq_nil_of_length_eq_zero (by
      by_contra hne
      rw [List.getElem?_eq_getElem (by omega)] at h0
      cases h0)
    simp [this]
  | some m =>
    rw [PQueue.min?_eq_some]
    refine ⟨Multiset.mem_coe.mpr (List.mem_of_getElem? h0), fun y hy => ?_⟩
    obtain ⟨k, hk, rfl⟩ := List.getElem_of_mem (Multiset.mem_coe.mp hy)
    exact ha.root_le h0 k _ (List.getElem?_eq_getElem hk)

end Kivaloo.Lib
