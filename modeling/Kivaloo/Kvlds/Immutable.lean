import Kivaloo.Kvlds.MutateSpec

/-!
# The in-place merge of `btree_mutate_immutable` (kvlds/btree_mutate.c)

`btreeMutateImmutable` models the end of a batch on a leaf as a merge of two lists.  The C code
does it in one array: it counts the pairs with values (`nkeys_list` in the sorted array,
`nkeys_hash` in the hash table), allocates `new_pairs` for all of them, copies the hashed pairs
to its end and sorts them there, and then merges the sorted array into `new_pairs` from the
front.  The merge writes at `j` and reads hashed pairs at `k`, in the same array.

This module models that array (`btreeMutateImmutableArray`), with the first `nkeys_list` slots
holding whatever `malloc` returned, and proves that it computes `btreeMutateImmutable`
(`btreeMutateImmutableArray_eq`) whatever those slots held.  The invariant of the merge loop
(`mergeLoop_spec`) says the array is the output so far, then as many stale slots as there are
array pairs left to copy, then the hashed pairs not yet read: each write is to a stale slot,
below `k`, so no hashed pair is overwritten before it is read.
-/

namespace Kivaloo.Kvlds

open Kivaloo.Lib KVLDSKey

/-- The inner loop of the merge: while `k` is in the array and the pair there has a smaller key
than `key` (by `kvldskey_cmp2` from `mlen`), copy it to `j`.  The array, `j` and `k` after. -/
def moveSmaller (mlen : ℕ) (key : KVLDSKey) (arr : List (KVLDSKey × KVLDSKey)) (j k : ℕ) :
    List (KVLDSKey × KVLDSKey) × ℕ × ℕ :=
  if h : k < arr.length then
    if 0 < kvldskeyCmp2 key arr[k].1 mlen then
      moveSmaller mlen key (arr.set j arr[k]) (j + 1) (k + 1)
    else (arr, j, k)
  else (arr, j, k)
termination_by arr.length - k
decreasing_by
  simp only [List.length_set]
  omega

/-- The merge loop over the sorted array of the leaf: a pair with a NULL value is skipped; a
pair with a value is copied to `j` after the smaller hashed pairs. -/
def mergeLoop (mlen : ℕ) :
    List (KVLDSKey × Option KVLDSKey) → List (KVLDSKey × KVLDSKey) → ℕ → ℕ →
      List (KVLDSKey × KVLDSKey)
  | [], arr, _, _ => arr
  | (_, none) :: ps, arr, j, k => mergeLoop mlen ps arr j k
  | (key, some v) :: ps, arr, j, k =>
    match moveSmaller mlen key arr j k with
    | (arr, j, k) => mergeLoop mlen ps (arr.set j (key, v)) (j + 1) k

/-- `btree_mutate_immutable(N)` on arrays: `old i` is what the `i`-th slot of the new array
holds before it is written.  The hashed pairs with values are copied to the slots from
`nkeys_list` on, in the order of the hash table, and sorted there (`kvpair_sort`); then the merge
loop runs with `j = 0` and `k = nkeys_list`.  With no pairs at all the array is empty. -/
def btreeMutateImmutableArray (L : MutableLeaf) (old : ℕ → KVLDSKey × KVLDSKey) :
    List (KVLDSKey × KVLDSKey) :=
  let nkeysList := (L.pairs.filter fun p => p.2.isSome).length
  let hashed := L.hash.filterMap fun p => p.2.map fun v => (p.1, v)
  let sorted := hashed.insertionSort fun x y => kvldskeyCmp2 x.1 y.1 L.info.mlenN ≤ 0
  mergeLoop L.info.mlenN L.pairs ((List.range nkeysList).map old ++ sorted) 0 nkeysList

/-! ## The invariant of the merge loop -/

section Loop

variable (mlen : ℕ)

/-- The inner loop on the output `out`, the stale slots `stale` and the unread hashed pairs `hs`
moves the hashed pairs below `key` to the output; the stale slots move up past them. -/
theorem moveSmaller_spec (key : KVLDSKey) :
    ∀ (hs out stale : List (KVLDSKey × KVLDSKey)), stale ≠ [] →
      ∃ stale', stale'.length = stale.length ∧
        moveSmaller mlen key (out ++ stale ++ hs) out.length (out.length + stale.length) =
          (out ++ hs.takeWhile (fun h => 0 < kvldskeyCmp2 key h.1 mlen) ++ stale' ++
              hs.dropWhile (fun h => 0 < kvldskeyCmp2 key h.1 mlen),
            out.length + (hs.takeWhile fun h => 0 < kvldskeyCmp2 key h.1 mlen).length,
            out.length + (hs.takeWhile fun h => 0 < kvldskeyCmp2 key h.1 mlen).length +
              stale.length)
  | [], out, stale, _ => by
    -- `k` has reached the end of the array
    refine ⟨stale, rfl, ?_⟩
    rw [moveSmaller, dif_neg (by simp)]
    simp
  | h :: hs, out, stale, hstale => by
    have hlt : out.length + stale.length < (out ++ stale ++ h :: hs).length := by simp
    have hget : (out ++ stale ++ h :: hs)[out.length + stale.length] = h := by
      simp [List.getElem_append_right]
    rw [moveSmaller, dif_pos hlt, hget]
    by_cases hp : 0 < kvldskeyCmp2 key h.1 mlen
    · -- `h` goes to the first stale slot, and its own slot becomes stale
      obtain ⟨s, stale₀, rfl⟩ := List.exists_cons_of_ne_nil hstale
      have hset : (out ++ s :: stale₀ ++ h :: hs).set out.length h =
          (out ++ [h]) ++ (stale₀ ++ [h]) ++ hs := by
        simp [List.set_append_right]
      obtain ⟨stale', hlen, hmove⟩ :=
        moveSmaller_spec key hs (out ++ [h]) (stale₀ ++ [h]) (by simp)
      refine ⟨stale', by simpa using hlen, ?_⟩
      rw [if_pos hp, hset]
      simp only [List.length_append, List.length_cons, List.length_nil, Nat.zero_add] at hmove ⊢
      rw [show out.length + (stale₀.length + 1) + 1 =
        out.length + 1 + (stale₀.length + 1) by omega, hmove]
      simp [hp]
      omega
    · refine ⟨stale, rfl, ?_⟩
      rw [if_neg hp]
      simp [hp]

/-- The merge loop keeps the output, then one stale slot for each array pair with a value still
to copy, then the hashed pairs not yet read; it ends with the output of the merge of lists. -/
theorem mergeLoop_spec :
    ∀ (ps : List (KVLDSKey × Option KVLDSKey)) (out stale hs : List (KVLDSKey × KVLDSKey)),
      stale.length = (ps.filter fun p => p.2.isSome).length →
      mergeLoop mlen ps (out ++ stale ++ hs) out.length (out.length + stale.length) =
        out ++ immutableMerge mlen ps hs
  | [], out, stale, hs, hstale => by
    have hnil : stale = [] := List.length_eq_zero_iff.mp (by simpa using hstale)
    subst hnil
    simp [mergeLoop, immutableMerge]
  | (_, none) :: ps, out, stale, hs, hstale => by
    rw [mergeLoop, immutableMerge]
    exact mergeLoop_spec ps out stale hs (by simpa using hstale)
  | (key, some v) :: ps, out, stale, hs, hstale => by
    have hcount : stale.length = (ps.filter fun p => p.2.isSome).length + 1 := by
      simpa using hstale
    have hne : stale ≠ [] := List.ne_nil_of_length_pos (by omega)
    obtain ⟨stale', hlen, hmove⟩ := moveSmaller_spec mlen key hs out stale hne
    set T := hs.takeWhile fun h => decide (0 < kvldskeyCmp2 key h.1 mlen)
    set D := hs.dropWhile fun h => decide (0 < kvldskeyCmp2 key h.1 mlen)
    -- the pair goes to the first stale slot, after the hashed pairs below it
    obtain ⟨s, stale'', rfl⟩ := List.exists_cons_of_ne_nil
      (List.ne_nil_of_length_pos (by omega : 0 < stale'.length))
    have hset : (out ++ T ++ s :: stale'' ++ D).set (out.length + T.length) (key, v) =
        (out ++ T ++ [(key, v)]) ++ stale'' ++ D := by
      simp [List.set_append_right]
    have hk : out.length + T.length + stale.length =
        (out ++ T ++ [(key, v)]).length + stale''.length := by
      simp only [List.length_append, List.length_singleton]
      simp only [List.length_cons] at hlen
      omega
    have ih := mergeLoop_spec ps (out ++ T ++ [(key, v)]) stale'' D (by
      simp only [List.length_cons] at hlen
      omega)
    rw [mergeLoop, hmove]
    dsimp only
    rw [hset, hk, show out.length + T.length + 1 = (out ++ T ++ [(key, v)]).length by
      simp only [List.length_append, List.length_singleton], ih, immutableMerge]
    simp [T, D]

end Loop

/-- The array `btree_mutate_immutable` builds is the merge of lists, whatever its slots held. -/
theorem btreeMutateImmutableArray_eq (L : MutableLeaf) (old : ℕ → KVLDSKey × KVLDSKey) :
    btreeMutateImmutableArray L old = btreeMutateImmutable L := by
  have h := mergeLoop_spec L.info.mlenN L.pairs []
    ((List.range (L.pairs.filter fun p => p.2.isSome).length).map old)
    ((L.hash.filterMap fun p => p.2.map fun v => (p.1, v)).insertionSort
      fun x y => kvldskeyCmp2 x.1 y.1 L.info.mlenN ≤ 0) (by simp)
  simp only [List.nil_append, List.length_nil, List.length_map, List.length_range,
    Nat.zero_add] at h
  exact h

/-- On a leaf with the invariant, the pairs after the batch are those with values, from the
array and from the hash table. -/
theorem mem_btreeMutateImmutable {L : MutableLeaf} (hL : L.WF) (q : KVLDSKey × KVLDSKey) :
    q ∈ btreeMutateImmutable L ↔ (q.1, some q.2) ∈ L.pairs ++ L.hash := by
  obtain ⟨hsorted, hlookup, -⟩ := btreeMutateImmutable_spec hL
  rw [← lookup_eq_some_iff_mem (nodup_map_fst_of_sorted hsorted), hlookup, MutableLeaf.get,
    Option.join_eq_some_iff, lookup_eq_some_iff_mem hL.nodup]

/-- The requests of a batch on a leaf keep the invariant: from the mutable copy of a sorted leaf
whose keys share its `mlen_n`, through `batch_run` of requests whose keys share its `mlen_t` with
its keys (as those `batch_dirty` routes to it do), to the leaf `btree_mutate_immutable` is called
on.  The induction is on the requests; the keys of the array and `mlen_t` stay as they were. -/
theorem wf_foldl_batchRunReq :
    ∀ (rs : List MRequest) (L : MutableLeaf), L.WF →
      (∀ r ∈ rs, ∀ p ∈ L.pairs, SharePrefix L.info.mlenT r.key p.1) →
      (rs.foldl (fun L r => (batchRunReq r L).1) L).WF
  | [], _, hL, _ => hL
  | r :: rs, L, hL, hk => by
    have hperf := batchRunReq_performs hL (hk r List.mem_cons_self)
    have hmlenT : (batchRunReq r L).1.info.mlenT = L.info.mlenT := by rw [hperf.info]
    refine wf_foldl_batchRunReq rs _ hperf.wf fun r' hr' p hp => ?_
    -- the array keeps its keys, so the request still shares `mlen_t` with each of them
    have hkey : p.1 ∈ L.pairs.map Prod.fst := hperf.pairs ▸ List.mem_map_of_mem hp
    obtain ⟨p', hp', hfst⟩ := List.mem_map.mp hkey
    rw [hmlenT, ← hfst]
    exact hk r' (List.mem_cons_of_mem _ hr') p' hp'

theorem btreeMutateImmutableArray_spec {L : MutableLeaf} (hL : L.WF)
    (old : ℕ → KVLDSKey × KVLDSKey) :
    (btreeMutateImmutableArray L old).Pairwise (fun p q => p.1 < q.1) ∧
      ∀ q, q ∈ btreeMutateImmutableArray L old ↔ (q.1, some q.2) ∈ L.pairs ++ L.hash := by
  rw [btreeMutateImmutableArray_eq]
  exact ⟨(btreeMutateImmutable_spec hL).1, mem_btreeMutateImmutable hL⟩

/-- A dirty leaf holding `x ↦ 7` and `z ↦ 9`, after a batch that deletes `x` and sets `y ↦ 8`:
the array holds `x` with a NULL value and `z`, the hash table `y`. -/
def exampleBatchLeaf : MutableLeaf :=
  [⟨.delete, ⟨[120], by decide⟩, empty, empty⟩,
      ⟨.set, ⟨[121], by decide⟩, ⟨[56], by decide⟩, empty⟩].foldl
    (fun L r => (batchRunReq r L).1)
    (btreeMutateMutable (.leaf ⟨0, 0, 0, none, .dirty, false, false, false, 0, 0, 0⟩
      [(⟨[120], by decide⟩, ⟨[55], by decide⟩),
        (⟨[122], by decide⟩, ⟨[57], by decide⟩)]))

theorem btreeMutateImmutableArray_spec_example :
    exampleBatchLeaf.WF ∧
      (btreeMutateImmutableArray exampleBatchLeaf fun _ => (empty, empty)).Pairwise
        (fun p q => p.1 < q.1) ∧
      ∀ q, q ∈ btreeMutateImmutableArray exampleBatchLeaf (fun _ => (empty, empty)) ↔
        (q.1, some q.2) ∈ exampleBatchLeaf.pairs ++ exampleBatchLeaf.hash := by
  have hL : exampleBatchLeaf.WF :=
    wf_foldl_batchRunReq _ _ (btreeMutateMutable_wf (by decide) (by decide)) (by decide)
  exact ⟨hL, btreeMutateImmutableArray_spec hL _⟩

end Kivaloo.Kvlds
