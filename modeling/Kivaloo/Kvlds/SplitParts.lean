import Kivaloo.Kvlds.SplitSpec

/-!
# The parts of a split (kvlds/btree_node_split.c, `splitchildren` in kvlds/btree_balance.c)

What `btree_node_split` writes into `keys` and `parents`, part by part.  A leaf's parts hold its
pairs in order, and the separator before each part but the first is that part's first key
(`splitLeafLoop_seps`).  A parent's parts hold its children in order, and its keys are the parts'
keys with the promoted separators between them (`splitParentLoop_keys`).  No part is empty:
a parent part always has a child, and a leaf part a pair once the page holds the overhead of a
node, which `btree_init` checks (`serializeOverhead ≤ pagelen * 2 / 3`).

`splitchildren` sizes its vectors with `btree_node_split_nparts` before the building loop
fills them; `splitBuild_count` shows the count is the number of keys the loop writes, so that
`assert(new_nkeys == j - 1)` holds.
-/

namespace Kivaloo.Kvlds

open Kivaloo.Lib Node

/-! ## Leaves -/

section Leaf

variable {breakat : ℕ}

/-- The parts of `split_leaf` hold the pairs in order. -/
theorem splitLeafLoop_flatten (ps : List (KVLDSKey × KVLDSKey)) :
    ∀ (cur : List (KVLDSKey × KVLDSKey)) (cursize : ℕ),
      (splitLeafLoop breakat cur cursize ps).2.flatten = cur ++ ps := by
  induction ps with
  | nil => simp [splitLeafLoop]
  | cons p ps ih =>
    intro cur cursize
    obtain ⟨k, v⟩ := p
    by_cases h : cursize > breakat
    · simp [splitLeafLoop, h, ih]
    · simp [splitLeafLoop, h, ih]

/-- The first part of the scan starts with the part under construction. -/
theorem splitLeafLoop_head (ps : List (KVLDSKey × KVLDSKey)) :
    ∀ (cur : List (KVLDSKey × KVLDSKey)) (cursize : ℕ), ∃ more parts,
      (splitLeafLoop breakat cur cursize ps).2 = (cur ++ more) :: parts := by
  induction ps with
  | nil => exact fun cur _ => ⟨[], [], by simp [splitLeafLoop]⟩
  | cons p ps ih =>
    intro cur cursize
    obtain ⟨k, v⟩ := p
    by_cases h : cursize > breakat
    · exact ⟨[], (splitLeafLoop breakat [(k, v)] (serializeOverhead + k.serialSize + v.serialSize)
        ps).2, by simp [splitLeafLoop, h]⟩
    · obtain ⟨more, parts, hparts⟩ := ih (cur ++ [(k, v)]) (cursize + k.serialSize + v.serialSize)
      refine ⟨(k, v) :: more, parts, ?_⟩
      simp [splitLeafLoop, h, hparts]

/-- The separator before each part but the first is the key of the part's first pair. -/
theorem splitLeafLoop_seps (ps : List (KVLDSKey × KVLDSKey)) :
    ∀ (cur : List (KVLDSKey × KVLDSKey)) (cursize : ℕ),
      List.Forall₂ (fun k part => part.head?.map Prod.fst = some k)
        (splitLeafLoop breakat cur cursize ps).1 (splitLeafLoop breakat cur cursize ps).2.tail := by
  induction ps with
  | nil => simp [splitLeafLoop]
  | cons p ps ih =>
    intro cur cursize
    obtain ⟨k, v⟩ := p
    by_cases h : cursize > breakat
    · -- the next part starts with the pair whose key is the separator
      obtain ⟨more, parts, hparts⟩ :=
        @splitLeafLoop_head breakat ps [(k, v)]
          (serializeOverhead + k.serialSize + v.serialSize)
      have hrest := ih [(k, v)] (serializeOverhead + k.serialSize + v.serialSize)
      rw [hparts] at hrest
      simp only [splitLeafLoop, h, if_true, List.tail_cons, hparts]
      exact .cons (by simp) hrest
    · simp only [splitLeafLoop, h, if_false]
      exact ih _ _

/-- With the overhead of a node below `breakat`, a part closes only when it holds a pair, so
no part is empty. -/
theorem splitLeafLoop_ne_nil (hb : serializeOverhead ≤ breakat) (ps : List (KVLDSKey × KVLDSKey)) :
    ∀ (cur : List (KVLDSKey × KVLDSKey)) (cursize : ℕ),
      cursize = serializeOverhead + pairsSize cur → cur ++ ps ≠ [] →
      ∀ part ∈ (splitLeafLoop breakat cur cursize ps).2, part ≠ [] := by
  induction ps with
  | nil =>
    intro cur cursize _ hne
    simpa [splitLeafLoop] using hne
  | cons p ps ih =>
    intro cur cursize hsize _
    obtain ⟨k, v⟩ := p
    by_cases h : cursize > breakat
    · have hcur : cur ≠ [] := by
        rintro rfl
        simp [pairsSize] at hsize
        omega
      have hrest := ih [(k, v)] (serializeOverhead + k.serialSize + v.serialSize)
        (by simp [pairsSize, Nat.add_assoc]) (by simp)
      simp only [splitLeafLoop, h, if_true, List.mem_cons]
      rintro part (rfl | hpart)
      · exact hcur
      · exact hrest part hpart
    · simp only [splitLeafLoop, h, if_false]
      exact ih _ _ (by simp [hsize, pairsSize, Nat.add_assoc]) (by simp)

end Leaf

/-! ## Parents -/

section Parent

variable {breakat : ℕ}

/-- The scan of `split_parent` makes one part more than separators. -/
theorem splitParentLoop_parts_length (rest : List (KVLDSKey × Node)) :
    ∀ (curKeys : List KVLDSKey) (curChildren : List Node) (cursize : ℕ),
      (splitParentLoop breakat curKeys curChildren cursize rest).2.length =
        (splitParentLoop breakat curKeys curChildren cursize rest).1.length + 1 := by
  induction rest with
  | nil => simp [splitParentLoop]
  | cons e rest ih =>
    intro curKeys curChildren cursize
    obtain ⟨k, c⟩ := e
    by_cases h : cursize > breakat
    · simp [splitParentLoop, h, ih]
    · simp [splitParentLoop, h, ih]

/-- The parts of `split_parent` hold the children in order. -/
theorem splitParentLoop_children (rest : List (KVLDSKey × Node)) :
    ∀ (curKeys : List KVLDSKey) (curChildren : List Node) (cursize : ℕ),
      ((splitParentLoop breakat curKeys curChildren cursize rest).2.map Prod.snd).flatten =
        curChildren ++ rest.map Prod.snd := by
  induction rest with
  | nil => simp [splitParentLoop]
  | cons e rest ih =>
    intro curKeys curChildren cursize
    obtain ⟨k, c⟩ := e
    by_cases h : cursize > breakat
    · simp [splitParentLoop, h, ih]
    · simp [splitParentLoop, h, ih]

/-- The keys of the parts of `split_parent`, with the promoted separators between them, are the
keys of the node. -/
theorem splitParentLoop_keys (rest : List (KVLDSKey × Node)) :
    ∀ (curKeys : List KVLDSKey) (curChildren : List Node) (cursize : ℕ),
      interleave ((splitParentLoop breakat curKeys curChildren cursize rest).2.map Prod.fst)
          (splitParentLoop breakat curKeys curChildren cursize rest).1 =
        curKeys ++ rest.map Prod.fst := by
  induction rest with
  | nil => simp [splitParentLoop]
  | cons e rest ih =>
    intro curKeys curChildren cursize
    obtain ⟨k, c⟩ := e
    by_cases h : cursize > breakat
    · -- `k` is promoted between the part that closes and the next
      simp [splitParentLoop, h, ih]
    · simp [splitParentLoop, h, ih]

/-- Every part of `split_parent` has a child: the first has child 0, and each other part starts
with the child that did not fit. -/
theorem splitParentLoop_ne_nil (rest : List (KVLDSKey × Node)) :
    ∀ (curKeys : List KVLDSKey) (curChildren : List Node) (cursize : ℕ), curChildren ≠ [] →
      ∀ p ∈ (splitParentLoop breakat curKeys curChildren cursize rest).2, p.2 ≠ [] := by
  induction rest with
  | nil =>
    intro curKeys curChildren cursize hne
    simpa [splitParentLoop] using hne
  | cons e rest ih =>
    intro curKeys curChildren cursize hne
    obtain ⟨k, c⟩ := e
    by_cases h : cursize > breakat
    · simp only [splitParentLoop, h, if_true, List.mem_cons]
      rintro p (rfl | hp)
      · exact hne
      · exact ih [] [c] _ (by simp) p hp
    · simp only [splitParentLoop, h, if_false]
      exact ih _ _ _ (by simp)

end Parent

/-! ## `btree_node_split` and `splitchildren` -/

section NodeSplit

variable {pagelen : ℕ}

/-- `btree_node_split` makes one part more than separators, whatever the node. -/
theorem btreeNodeSplit_length_seps (N : Node) :
    (btreeNodeSplit pagelen N).2.length = (btreeNodeSplit pagelen N).1.length + 1 := by
  cases N with
  | leaf m ps => simp [btreeNodeSplit, splitLeaf, splitLeafLoop_length']
  | parent m ks cs => simp [btreeNodeSplit, splitParent, splitParentLoop_parts_length]

/-- The parts `btree_node_split` makes of a leaf: its pairs in order, each separator the first
key of the part after it, and no part empty. -/
theorem btreeNodeSplit_leaf (m : NodeInfo) (ps : List (KVLDSKey × KVLDSKey)) :
    ((btreeNodeSplit pagelen (.leaf m ps)).2.map leafPairs).flatten = ps ∧
      List.Forall₂ (fun k P => (leafPairs P).head?.map Prod.fst = some k)
        (btreeNodeSplit pagelen (.leaf m ps)).1 (btreeNodeSplit pagelen (.leaf m ps)).2.tail ∧
      (serializeOverhead ≤ pagelen * 2 / 3 → ps ≠ [] →
        ∀ P ∈ (btreeNodeSplit pagelen (.leaf m ps)).2, leafPairs P ≠ []) := by
  have hpairs : ∀ parts : List (List (KVLDSKey × KVLDSKey)),
      (parts.map mkleaf).map leafPairs = parts := fun parts => by
    rw [List.map_map]
    exact List.map_id'' (fun _ => rfl) parts
  simp only [btreeNodeSplit, splitLeaf, hpairs]
  refine ⟨by simpa using splitLeafLoop_flatten ps [] serializeOverhead, ?_, fun hb hne => ?_⟩
  · rw [← List.map_tail, List.forall₂_map_right_iff]
    exact splitLeafLoop_seps ps [] serializeOverhead
  · simp only [List.mem_map]
    rintro _ ⟨part, hpart, rfl⟩
    exact splitLeafLoop_ne_nil hb ps [] serializeOverhead (by simp [pairsSize]) (by simpa using hne)
      part hpart

/-- The parts `btree_node_split` makes of a parent: its keys with the promoted separators between
the parts' keys, its children in order, and a child in each part. -/
theorem btreeNodeSplit_parent (m : NodeInfo) {ks : List KVLDSKey} {cs : List Node}
    (hlen : cs.length = ks.length + 1) :
    interleave ((btreeNodeSplit pagelen (.parent m ks cs)).2.map parentKeys)
        (btreeNodeSplit pagelen (.parent m ks cs)).1 = ks ∧
      ((btreeNodeSplit pagelen (.parent m ks cs)).2.map children).flatten = cs ∧
      ∀ P ∈ (btreeNodeSplit pagelen (.parent m ks cs)).2, children P ≠ [] := by
  have hzip₁ : (ks.zip (cs.drop 1)).map Prod.fst = ks := List.map_fst_zip (by simp; omega)
  have hzip₂ : (ks.zip (cs.drop 1)).map Prod.snd = cs.drop 1 := List.map_snd_zip (by simp; omega)
  have hfirst : cs.take 1 ≠ [] := by
    intro h
    rw [List.take_eq_nil_iff] at h
    rcases h with h | h
    · omega
    · simp [h] at hlen
  simp only [btreeNodeSplit, splitParent, List.map_map]
  refine ⟨?_, ?_, ?_⟩
  · have hkeys := @splitParentLoop_keys (pagelen * 2 / 3) (ks.zip (cs.drop 1)) []
      (cs.take 1) (serializeOverhead + serializePerchild)
    rw [hzip₁, List.nil_append] at hkeys
    convert hkeys using 2
    exact List.map_congr_left fun _ _ => rfl
  · have hcs := @splitParentLoop_children (pagelen * 2 / 3) (ks.zip (cs.drop 1)) []
      (cs.take 1) (serializeOverhead + serializePerchild)
    rw [hzip₂, List.take_append_drop] at hcs
    convert hcs using 2
    exact List.map_congr_left fun _ _ => rfl
  · simp only [List.mem_map]
    rintro _ ⟨p, hp, rfl⟩
    exact splitParentLoop_ne_nil (ks.zip (cs.drop 1)) [] (cs.take 1) _ hfirst p hp

/-- The building loop of `splitchildren` makes as many children as the counting loop counts,
and one child more than keys. -/
theorem splitBuild_count :
    ∀ (cs : List Node) (ks ks' : List KVLDSKey) (cs' : List Node) (n : ℕ),
      cs.length = ks.length + 1 → splitBuild pagelen ks cs = some (ks', cs', n) →
      cs'.length = (cs.map (childParts pagelen)).sum ∧ cs'.length = ks'.length + 1
  | [], _, _, _, _, hlen, _ => by simp at hlen
  | c :: cs, ks, ks', cs', n, hlen, h => by
    -- what the loop builds after the child `c` and its separator
    have hrest : ∀ ks₁ cs₁ n₁, splitBuild pagelen (ks.drop 1) cs = some (ks₁, cs₁, n₁) →
        cs₁.length = (cs.map (childParts pagelen)).sum ∧
          cs₁.length = (ks.take 1).length + ks₁.length := by
      intro ks₁ cs₁ n₁ hrec
      obtain _ | ⟨k, ks⟩ := ks
      · -- `c` is the last child
        obtain rfl : cs = [] := List.length_eq_zero_iff.mp (by simpa using hlen)
        simp only [splitBuild, Option.some.injEq, Prod.mk.injEq] at hrec
        obtain ⟨rfl, rfl, -⟩ := hrec
        simp
      · obtain ⟨h₁, h₂⟩ :=
          splitBuild_count cs ks ks₁ cs₁ n₁ (by simpa using hlen) (by simpa using hrec)
        refine ⟨h₁, ?_⟩
        simp only [List.take_succ_cons, List.take_zero, List.length_singleton]
        omega
    simp only [splitBuild] at h
    split at h
    · cases h
    · rename_i ks₁ cs₁ n₁ hrec
      obtain ⟨h₁, h₂⟩ := hrest ks₁ cs₁ n₁ hrec
      by_cases hover : oversized pagelen c = true
      · -- an oversized child is replaced by its parts
        rw [if_pos hover] at h
        split at h
        · cases h
          have hparts := btreeNodeSplit_length pagelen c
          have hseps := @btreeNodeSplit_length_seps pagelen c
          simp only [List.length_append, List.map_cons, List.sum_cons, childParts, hover,
            if_true]
          omega
        · cases h
      · rw [if_neg hover] at h
        cases h
        simp only [List.length_append, List.length_cons, List.map_cons, List.sum_cons,
          childParts, hover]
        simp only [Bool.false_eq_true, if_false]
        omega

/-- The count of `splitchildren` is the number of keys its building loop writes. -/
theorem splitchildren_newNkeys {ks ks' : List KVLDSKey} {cs cs' : List Node} {n : ℕ}
    (hlen : cs.length = ks.length + 1) (h : splitBuild pagelen ks cs = some (ks', cs', n)) :
    (cs.map (childParts pagelen)).sum - 1 = ks'.length ∧
      (cs.map (childParts pagelen)).sum - 1 = cs'.length - 1 := by
  obtain ⟨h₁, h₂⟩ := splitBuild_count cs ks ks' cs' n hlen h
  omega

end NodeSplit

theorem btreeNodeSplit_partsAgree (pagelen : ℕ) (hpage : 512 ≤ pagelen ∧ pagelen ≤ 131072) :
    (∀ N, (btreeNodeSplit pagelen N).2.length = btreeNodeSplitNparts pagelen N) ∧
    (∀ m ps,
      ((btreeNodeSplit pagelen (.leaf m ps)).2.map leafPairs).flatten = ps ∧
        List.Forall₂ (fun k P => (leafPairs P).head?.map Prod.fst = some k)
          (btreeNodeSplit pagelen (.leaf m ps)).1 (btreeNodeSplit pagelen (.leaf m ps)).2.tail ∧
        (ps ≠ [] → ∀ P ∈ (btreeNodeSplit pagelen (.leaf m ps)).2, leafPairs P ≠ [])) ∧
    (∀ m ks cs, cs.length = ks.length + 1 →
      interleave ((btreeNodeSplit pagelen (.parent m ks cs)).2.map parentKeys)
          (btreeNodeSplit pagelen (.parent m ks cs)).1 = ks ∧
        ((btreeNodeSplit pagelen (.parent m ks cs)).2.map children).flatten = cs ∧
        ∀ P ∈ (btreeNodeSplit pagelen (.parent m ks cs)).2, children P ≠ []) ∧
    (∀ ks cs ks' cs' n, cs.length = ks.length + 1 → splitBuild pagelen ks cs = some (ks', cs', n) →
      (cs.map (childParts pagelen)).sum - 1 = ks'.length) := by
  -- a page of at least `PROTO_LBS_BLKLEN_MIN` bytes holds the overhead of a node in two thirds
  have hover : serializeOverhead ≤ pagelen * 2 / 3 := by
    rw [serializeOverhead]
    omega
  refine ⟨btreeNodeSplit_length pagelen, fun m ps => ?_, fun m _ _ hlen => btreeNodeSplit_parent m hlen,
    fun _ _ _ _ _ hlen h => (splitchildren_newNkeys hlen h).1⟩
  obtain ⟨hflat, hseps, hne⟩ := @btreeNodeSplit_leaf pagelen m ps
  exact ⟨hflat, hseps, hne hover⟩

/-- Five pairs of 170 bytes each: 64-byte keys `i` and 104-byte values. -/
def fivePairs : List (KVLDSKey × KVLDSKey) :=
  (List.range 5).map fun i =>
    (⟨List.replicate 64 (i.toUInt8 + 1), by simp⟩, ⟨List.replicate 104 0, by simp⟩)

/-- On a 512-byte page a leaf of `fivePairs` splits into three parts, of two, two and one pairs,
each of them with a pair. -/
theorem btreeNodeSplit_partsAgree_fivePairs :
    (512 ≤ 512 ∧ 512 ≤ 131072) ∧ btreeNodeSplitNparts 512 (mkleaf fivePairs) = 3 ∧
      (btreeNodeSplit 512 (mkleaf fivePairs)).2.length = btreeNodeSplitNparts 512 (mkleaf fivePairs) ∧
      ((btreeNodeSplit 512 (mkleaf fivePairs)).2.map leafPairs).flatten = fivePairs ∧
      ∀ P ∈ (btreeNodeSplit 512 (mkleaf fivePairs)).2, leafPairs P ≠ [] :=
  ⟨by decide, by rfl, (btreeNodeSplit_partsAgree 512 (by decide)).1 _,
    ((btreeNodeSplit_partsAgree 512 (by decide)).2.1 _ fivePairs).1,
    ((btreeNodeSplit_partsAgree 512 (by decide)).2.1 _ fivePairs).2.2 (by simp [fivePairs])⟩

end Kivaloo.Kvlds
