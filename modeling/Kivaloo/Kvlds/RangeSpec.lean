import Kivaloo.Kvlds.Range
import Kivaloo.Kvlds.BalanceSpec

/-!
# What a RANGE request returns

`btree_find_child` finds the child responsible for a key whenever the separators of the node
are sorted and share the node's prefix with the key (`btreeFindChild_spec`), by the spec of the
binary search (`Lib.bsearch_spec`).

Reading a leaf within the budget, `callback_range_gotleaf` adds to the heap exactly the pairs
whose key is at least the start of the request and, when the end of the request is not empty,
at most its end (`gotleafLoop_of_budget`).  The protocol (lib/proto_kvlds/proto_kvlds.h) asks
for the keys below the end: a stored key equal to the end is returned as well, together with
that same key as the next starting point (`dispatchRange_rangeEndPair`).

Whatever order the leaves complete in, a RANGE response holds as many pairs as it announces,
and more than one only if they fit in half of `range_max`, since each pair takes at least two
bytes of the budget (`dispatchRange_budget`); this is the bound the client checks.

`rangedone` never proposes a next key beyond a non-empty end (`rangedone_next_le`).
-/

namespace Kivaloo.Kvlds

open Kivaloo.Lib Node KVLDSKey

/-! ## Finding a child -/

/-- `btree_find_child` on sorted separators which share the node's prefix with the key: the
separators before the child it returns are at most the key, the others above it. -/
theorem btreeFindChild_spec {m : NodeInfo} {ks : List KVLDSKey} {cs : List Node}
    {k : KVLDSKey} (hs : ks.Pairwise (· < ·)) (hp : ∀ x ∈ ks, SharePrefix m.mlenT k x) :
    btreeFindChild (.parent m ks cs) k ≤ ks.length ∧
      (∀ j (hj : j < ks.length), j < btreeFindChild (.parent m ks cs) k → ks[j] ≤ k) ∧
      ∀ j (hj : j < ks.length), btreeFindChild (.parent m ks cs) k ≤ j → k < ks[j] := by
  set c : KVLDSKey → ℤ := fun x => kvldskeyCmp2 k x m.mlenT with hc
  -- on the separators the comparison from the shared prefix is the plain comparison
  have hcmp : ∀ x ∈ ks, c x = kvldskeyCmp k x := fun x hx => cmp2_eq_cmp (hp x hx)
  have hge : ∀ x ∈ ks, 0 ≤ c x ↔ x ≤ k := fun x hx => by
    rw [hcmp x hx, ← not_lt, cmp_neg_iff, not_lt]
  have hneg : ∀ x ∈ ks, c x < 0 ↔ k < x := fun x hx => by rw [hcmp x hx, cmp_neg_iff]
  have hsorted : SortedAround c ks := by
    refine hs.imp_of_mem fun hx hy hxy hy0 => ?_
    rw [hcmp _ hx, cmp_pos_iff]
    exact lt_of_lt_of_le hxy ((hge _ hy).mp hy0)
  obtain ⟨hlen, hbelow, habove⟩ := (bsearch_spec hsorted empty).upper
  refine ⟨hlen, fun j hj hji => ?_, fun j hj hij => ?_⟩
  · exact (hge _ (List.getElem_mem hj)).mp (hbelow j hj hji)
  · exact (hneg _ (List.getElem_mem hj)).mp (habove j hj hij)

/-! ## Reading a leaf -/

/-- The pairs `callback_range_gotleaf` copies: keys from the start on and, unless the end is
empty, up to the end inclusive. -/
def RangeRequest.copies (R : RangeRequest) (k : KVLDSKey) : Bool :=
  decide (R.rangeStart ≤ k) && (R.rangeEnd.len == 0 || decide (k ≤ R.rangeEnd))

/-- The tests of the pair loop decide `copies`. -/
theorem copies_eq_false_iff (R : RangeRequest) (k : KVLDSKey) :
    R.copies k = false ↔ kvldskeyCmp k R.rangeStart < 0 ∨
      (0 < R.rangeEnd.len ∧ 0 < kvldskeyCmp k R.rangeEnd) := by
  rw [cmp_neg_iff, cmp_pos_iff]
  simp only [RangeRequest.copies, Bool.and_eq_false_iff, decide_eq_false_iff_not, not_le,
    Bool.or_eq_false_iff, beq_eq_false_iff_ne, Nat.pos_iff_ne_zero]

/-- Within the budget the pair loop adds exactly the pairs it copies, in order. -/
theorem gotleafLoop_of_budget (R : RangeRequest) (ps : List (KVLDSKey × KVLDSKey))
    (C : RangeCookie)
    (hbudget : C.rlen + pairsSize (ps.filter fun p => R.copies p.1) ≤ R.rangeMax) :
    gotleafLoop R ps C =
      { C with rlen := C.rlen + pairsSize (ps.filter fun p => R.copies p.1),
               nkeys := C.nkeys + (ps.filter fun p => R.copies p.1).length,
               heap := C.heap ++ ps.filter fun p => R.copies p.1 } := by
  induction ps generalizing C with
  | nil => simp [gotleafLoop, pairsSize]
  | cons p ps ih =>
    obtain ⟨k, v⟩ := p
    by_cases hk : R.copies k
    · -- a copied pair fits the budget, so the loop goes on with it in the heap
      have hskip : ¬ (kvldskeyCmp k R.rangeStart < 0 ∨
          (0 < R.rangeEnd.len ∧ 0 < kvldskeyCmp k R.rangeEnd)) := by
        rw [← copies_eq_false_iff]
        simp [hk]
      push Not at hskip
      simp only [List.filter_cons, hk, if_true, pairsSize] at hbudget ⊢
      have hfit : ¬ (0 < C.nkeys ∧ R.rangeMax < C.rlen + k.serialSize + v.serialSize) := by
        omega
      rw [gotleafLoop, if_neg (not_lt.mpr hskip.1), if_neg (fun h => absurd h.2 (not_lt.mpr
        (hskip.2 h.1))), if_neg hfit, ih _ (by simp only; omega)]
      simp only [List.length_cons, List.append_assoc, List.singleton_append]
      congr 1 <;> omega
    · -- a pair outside the range is skipped without touching the budget
      have hskip := (copies_eq_false_iff R k).mp (by simpa using hk)
      simp only [List.filter_cons, hk, Bool.false_eq_true, if_false] at hbudget ⊢
      rw [← ih C hbudget]
      by_cases hlt : kvldskeyCmp k R.rangeStart < 0
      · rw [gotleafLoop, if_pos hlt]
      · rw [gotleafLoop, if_neg hlt, if_pos (hskip.resolve_left hlt)]

/-! ## The budget -/

/-- What the RANGE cookie keeps of the budget: the heap holds `nkeys` pairs, each of at least two
bytes counted in `rlen`, and beyond a first pair they fit in `range_max`. -/
structure RangeCookie.Budget (R : RangeRequest) (C : RangeCookie) : Prop where
  heap_length : C.heap.length = C.nkeys
  rlen_ge : 2 * C.nkeys ≤ C.rlen
  fits : C.nkeys ≤ 1 ∨ 2 * C.nkeys ≤ R.rangeMax

/-- The pair loop keeps the budget: the first pair always goes in, a later one only when the
running `rlen`, which counts it, is within `range_max`. -/
theorem gotleafLoop_budget (R : RangeRequest) (ps : List (KVLDSKey × KVLDSKey)) (C : RangeCookie)
    (hC : C.Budget R) : (gotleafLoop R ps C).Budget R := by
  induction ps generalizing C with
  | nil => exact hC
  | cons p ps ih =>
    obtain ⟨hheap, hrlen, hfits⟩ := hC
    have hsize : 2 ≤ p.1.serialSize + p.2.serialSize := by
      simp only [serialSize]
      omega
    simp only [gotleafLoop]
    split_ifs with hlt hgt hstop
    · exact ih C ⟨hheap, hrlen, hfits⟩
    · exact ih C ⟨hheap, hrlen, hfits⟩
    · -- the pair that breaks the budget is counted in `rlen` and left out of the heap
      exact ⟨hheap, by dsimp only; omega, hfits⟩
    · apply ih
      refine ⟨by simp [hheap], by dsimp only; omega, ?_⟩
      dsimp only
      omega

/-- `callback_range_gotleaf` keeps the budget. -/
theorem callbackRangeGotleaf_budget (R : RangeRequest) (L : Node) (C : RangeCookie)
    (hC : C.Budget R) : (callbackRangeGotleaf R L C).Budget R := by
  obtain ⟨hheap, hrlen, hfits⟩ := gotleafLoop_budget R L.leafPairs C hC
  exact ⟨hheap, hrlen, hfits⟩

/-- `callback_range_gotnode` starts with an empty heap and nothing counted. -/
theorem callbackRangeGotnode_budget {pagelen : ℕ} {R : RangeRequest} {N : Node} {e : KVLDSKey}
    {C : RangeCookie} {Ls : List Node} (h : callbackRangeGotnode pagelen R N e = some (C, Ls)) :
    C.Budget R := by
  simp only [callbackRangeGotnode] at h
  split_ifs at h <;> cases h <;> exact ⟨rfl, le_rfl, .inl (Nat.zero_le 1)⟩

/-- The response holds the heap's `nkeys` pairs, and beyond a first pair twice their number is
within `range_max`: each pair takes at least two bytes. -/
theorem rangeLeaves_budget {R : RangeRequest} :
    ∀ {Ls : List Node} {C : RangeCookie} {resp : RangeResponse}, C.Budget R →
      rangeLeaves R Ls C = some resp →
        resp.pairs.length = resp.nkeys ∧ (resp.nkeys ≤ 1 ∨ 2 * resp.nkeys ≤ R.rangeMax)
  | [], _, _, _, h => by simp [rangeLeaves] at h
  | L :: Ls, C, resp, hC, h => by
    have hC' := callbackRangeGotleaf_budget R L C hC
    simp only [rangeLeaves] at h
    split_ifs at h
    · cases h
      refine ⟨?_, hC'.fits⟩
      simp only [rangedone, List.length_insertionSort]
      exact hC'.heap_length
    · exact rangeLeaves_budget hC' h

/-- A RANGE response holds `nkeys` pairs, and more than one only within half of `range_max`. -/
theorem dispatchRange_budget {pagelen : ℕ} {root : Node} {R : RangeRequest}
    {order : List Node → List Node} {resp : RangeResponse}
    (h : dispatchRange pagelen root R order = some resp) :
    resp.pairs.length = resp.nkeys ∧ (resp.nkeys ≤ 1 ∨ 2 * resp.nkeys ≤ R.rangeMax) := by
  simp only [dispatchRange, Option.bind_eq_bind, Option.bind_eq_some_iff] at h
  obtain ⟨found, -, ⟨C, Ls⟩, hstart, hleaves⟩ := h
  exact rangeLeaves_budget (callbackRangeGotnode_budget hstart) hleaves

/-! ## The next key -/

/-- With a non-empty end, the next key `rangedone` sends is at most the end. -/
theorem rangedone_next_le (R : RangeRequest) (C : RangeCookie) (hR : R.rangeEnd.len ≠ 0) :
    (rangedone R C).next ≤ R.rangeEnd := by
  simp only [rangedone]
  by_cases hC : C.endKey.len = 0
  · rw [if_pos hC]
  rw [if_neg hC, if_neg hR]
  by_cases hlt : kvldskeyCmp C.endKey R.rangeEnd < 0
  · rw [if_pos hlt]
    exact (cmp_neg_iff.mp hlt).le
  · rw [if_neg hlt]

/-! ## A stored key equal to the end of the range -/

/-- The leaf of the key `a`. -/
def rangeLeaf₀ : Node := .leaf (cleanInfo 0) [(listKey [0x61], listKey [0x31])]

/-- The leaf of the keys `b` and `c`. -/
def rangeLeaf₁ : Node :=
  .leaf (cleanInfo 0) [(listKey [0x62], listKey [0x32]), (listKey [0x63], listKey [0x33])]

/-- A root of height one with the separator `b`. -/
def rangeRoot : Node := .parent { cleanInfo 1 with root := true } [listKey [0x62]] [rangeLeaf₀, rangeLeaf₁]

/-- RANGE from `a` below `b`, with a budget of two 512-byte pages. -/
def rangeAB : RangeRequest := ⟨listKey [0x61], listKey [0x62], 1024⟩

theorem searchTree_rangeRoot : SearchTree rangeRoot := by
  refine ⟨?_, ?_, ?_⟩
  · simp [rangeRoot, rangeLeaf₀, rangeLeaf₁, shape_parent, cleanInfo, mknodeInfo]
  · simp only [Ordered, rangeRoot, rangeLeaf₀, rangeLeaf₁, reading_parent, readingList_cons_cons,
      readingList_nil_cons, reading_leaf]
    decide
  · simp [rangeRoot, rangeLeaf₀, rangeLeaf₁, NoMarks, cleanInfo, mknodeInfo]

/-- The RANGE from `a` below `b` returns the pair of `b`, with `b` as the next key, in whichever
order the two leaves arrive: the separator `b` is not above the end, so the loop of
`callback_range_gotnode` goes on into the second leaf, and `callback_range_gotleaf` skips only
keys above the end. -/
theorem dispatchRange_rangeEndPair (order : List Node → List Node)
    (horder : ∀ ls, (order ls).Perm ls) :
    SearchTree rangeRoot ∧
      dispatchRange 512 rangeRoot rangeAB order =
        some ⟨2, listKey [0x62], [(listKey [0x61], listKey [0x31]), (listKey [0x62], listKey [0x32])]⟩ := by
  refine ⟨searchTree_rangeRoot, ?_⟩
  -- the root has height one, and both leaves are read with the end of the key space as end
  have hfound : btreeFindRange rangeRoot rangeAB.rangeStart 1 = some (rangeRoot, empty) := rfl
  have hstarted : callbackRangeGotnode 512 rangeAB rangeRoot empty =
      some (⟨empty, 0, 0, 0, 2, []⟩, [rangeLeaf₀, rangeLeaf₁]) := rfl
  simp only [dispatchRange, hfound, hstarted, Option.bind_eq_bind, Option.bind_some]
  rcases List.perm_pair.mp (horder [rangeLeaf₀, rangeLeaf₁]) with h | h
  · rw [h]
    rfl
  · rw [h]
    rfl

theorem dispatchRange_rangeEndPair_inOrder :
    (∀ ls : List Node, (id ls).Perm ls) ∧ SearchTree rangeRoot ∧
      dispatchRange 512 rangeRoot rangeAB id =
        some ⟨2, listKey [0x62], [(listKey [0x61], listKey [0x31]), (listKey [0x62], listKey [0x32])]⟩ :=
  ⟨fun ls => List.Perm.refl ls, dispatchRange_rangeEndPair id fun ls => List.Perm.refl ls⟩

end Kivaloo.Kvlds
