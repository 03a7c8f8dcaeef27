import Kivaloo.Kvlds.Node

/-!
# Splitting a node (kvlds/btree_node_split.c)

An oversized node is cut, scanning left to right, into parts which close as soon as they exceed
`breakat = pagelen * 2 / 3`.  A leaf part starts with the pair that did not fit, and that pair's
key separates it from the previous part.  A parent part starts with the child that did not fit;
the separator in front of that child is promoted to the caller rather than kept.

`btree_node_split_nparts` counts the parts with a loop of its own (`nparts_leaf`,
`nparts_parent`), which the callers use to size their arrays; `splitLeaf_length` and
`splitParent_length` show that the two loops agree.
-/

namespace Kivaloo.Kvlds

open Node

/-! ## Counting the parts -/

/-- The scan of `nparts_leaf` with `nparts` parts begun so far, the last of `cursize` bytes. -/
def npartsLeafLoop (breakat : ℕ) : ℕ → ℕ → List (KVLDSKey × KVLDSKey) → ℕ
  | nparts, _, [] => nparts
  | nparts, cursize, (k, v) :: ps =>
    if cursize > breakat then
      npartsLeafLoop breakat (nparts + 1) (serializeOverhead + k.serialSize + v.serialSize) ps
    else
      npartsLeafLoop breakat nparts (cursize + k.serialSize + v.serialSize) ps

/-- `nparts_leaf(N, breakat)`. -/
def npartsLeaf (breakat : ℕ) (ps : List (KVLDSKey × KVLDSKey)) : ℕ :=
  npartsLeafLoop breakat 1 serializeOverhead ps

/-- The scan of `nparts_parent` over the pairs `(keys[i-1], children[i])`, `i = 1 .. nkeys`. -/
def npartsParentLoop (breakat : ℕ) : ℕ → ℕ → List (KVLDSKey × Node) → ℕ
  | nparts, _, [] => nparts
  | nparts, cursize, (k, _) :: rest =>
    if cursize > breakat then
      npartsParentLoop breakat (nparts + 1) (serializeOverhead + serializePerchild) rest
    else
      npartsParentLoop breakat nparts (cursize + k.serialSize + serializePerchild) rest

/-- `nparts_parent(N, breakat)`: the first part starts with child 0. -/
def npartsParent (breakat : ℕ) (ks : List KVLDSKey) (cs : List Node) : ℕ :=
  npartsParentLoop breakat 1 (serializeOverhead + serializePerchild) (ks.zip (cs.drop 1))

/-- `btree_node_split_nparts(T, N)`. -/
def btreeNodeSplitNparts (pagelen : ℕ) : Node → ℕ
  | .leaf _ ps => npartsLeaf (pagelen * 2 / 3) ps
  | .parent _ ks cs => npartsParent (pagelen * 2 / 3) ks cs

/-! ## Building the parts -/

/-- The scan of `split_leaf`: `cur` is the part under construction (the `nkeys` pairs before
position `i` in C) and `cursize` its size.  Returns the separators and the parts. -/
def splitLeafLoop (breakat : ℕ) (cur : List (KVLDSKey × KVLDSKey)) (cursize : ℕ) :
    List (KVLDSKey × KVLDSKey) → List KVLDSKey × List (List (KVLDSKey × KVLDSKey))
  | [] => ([], [cur])
  | (k, v) :: ps =>
    if cursize > breakat then
      -- close `cur`; the separator is the key of the pair starting the next part
      let r := splitLeafLoop breakat [(k, v)] (serializeOverhead + k.serialSize + v.serialSize) ps
      (k :: r.1, cur :: r.2)
    else
      splitLeafLoop breakat (cur ++ [(k, v)]) (cursize + k.serialSize + v.serialSize) ps

/-- The separators and pair lists that `split_leaf` produces. -/
def splitLeaf (breakat : ℕ) (ps : List (KVLDSKey × KVLDSKey)) :
    List KVLDSKey × List (List (KVLDSKey × KVLDSKey)) :=
  splitLeafLoop breakat [] serializeOverhead ps

/-- The scan of `split_parent` over the pairs `(keys[i-1], children[i])`: the part under
construction has keys `curKeys` and children `curChildren`.  A part closes before a child that
does not fit, and the key in front of that child is promoted. -/
def splitParentLoop (breakat : ℕ) (curKeys : List KVLDSKey) (curChildren : List Node)
    (cursize : ℕ) :
    List (KVLDSKey × Node) → List KVLDSKey × List (List KVLDSKey × List Node)
  | [] => ([], [(curKeys, curChildren)])
  | (k, c) :: rest =>
    if cursize > breakat then
      let r := splitParentLoop breakat [] [c] (serializeOverhead + serializePerchild) rest
      (k :: r.1, (curKeys, curChildren) :: r.2)
    else
      splitParentLoop breakat (curKeys ++ [k]) (curChildren ++ [c])
        (cursize + k.serialSize + serializePerchild) rest

/-- The promoted separators and the (keys, children) of the parts that `split_parent`
produces; the first part starts with child 0. -/
def splitParent (breakat : ℕ) (ks : List KVLDSKey) (cs : List Node) :
    List KVLDSKey × List (List KVLDSKey × List Node) :=
  splitParentLoop breakat [] (cs.take 1) (serializeOverhead + serializePerchild)
    (ks.zip (cs.drop 1))

/-- `btree_node_split(T, N, keys, parents, nparts)`: the separators and the new nodes, which
are made by `makeleaf`/`makeparent` with the height of `N`.  (The caller adds `nparts - 1` to
`T->nnodes`.) -/
def btreeNodeSplit (pagelen : ℕ) : Node → List KVLDSKey × List Node
  | .leaf _ ps =>
    let r := splitLeaf (pagelen * 2 / 3) ps
    (r.1, r.2.map mkleaf)
  | .parent m ks cs =>
    let r := splitParent (pagelen * 2 / 3) ks cs
    (r.1, r.2.map fun p => mkparent m.height p.1 p.2)

/-! ## The loops agree -/

theorem splitLeafLoop_length (breakat : ℕ) :
    ∀ (ps : List (KVLDSKey × KVLDSKey)) (cur : List (KVLDSKey × KVLDSKey)) (nparts cursize : ℕ),
      npartsLeafLoop breakat (nparts + 1) cursize ps =
        nparts + (splitLeafLoop breakat cur cursize ps).2.length
  | [], _, _, _ => by simp [npartsLeafLoop, splitLeafLoop]
  | (k, v) :: ps, cur, nparts, cursize => by
    by_cases h : cursize > breakat
    · simp only [npartsLeafLoop, splitLeafLoop, h, if_true, List.length_cons]
      rw [splitLeafLoop_length breakat ps [(k, v)] (nparts + 1)]
      omega
    · simp only [npartsLeafLoop, splitLeafLoop, h, if_false]
      exact splitLeafLoop_length breakat ps _ nparts _

/-- `nparts_leaf` counts the parts `split_leaf` builds. -/
theorem splitLeaf_length (breakat : ℕ) (ps : List (KVLDSKey × KVLDSKey)) :
    (splitLeaf breakat ps).2.length = npartsLeaf breakat ps := by
  simp [npartsLeaf, splitLeaf, splitLeafLoop_length breakat ps [] 0]

theorem splitParentLoop_length (breakat : ℕ) :
    ∀ (rest : List (KVLDSKey × Node)) (curKeys : List KVLDSKey) (curChildren : List Node)
      (nparts cursize : ℕ),
      npartsParentLoop breakat (nparts + 1) cursize rest =
        nparts + (splitParentLoop breakat curKeys curChildren cursize rest).2.length
  | [], _, _, _, _ => by simp [npartsParentLoop, splitParentLoop]
  | (k, c) :: rest, curKeys, curChildren, nparts, cursize => by
    by_cases h : cursize > breakat
    · simp only [npartsParentLoop, splitParentLoop, h, if_true, List.length_cons]
      rw [splitParentLoop_length breakat rest [] [c] (nparts + 1)]
      omega
    · simp only [npartsParentLoop, splitParentLoop, h, if_false]
      exact splitParentLoop_length breakat rest _ _ nparts _

/-- `nparts_parent` counts the parts `split_parent` builds. -/
theorem splitParent_length (breakat : ℕ) (ks : List KVLDSKey) (cs : List Node) :
    (splitParent breakat ks cs).2.length = npartsParent breakat ks cs := by
  simp [npartsParent, splitParent, splitParentLoop_length breakat _ [] (cs.take 1) 0]

/-- `btree_node_split` makes `btree_node_split_nparts` parts. -/
theorem btreeNodeSplit_length (pagelen : ℕ) (N : Node) :
    (btreeNodeSplit pagelen N).2.length = btreeNodeSplitNparts pagelen N := by
  cases N with
  | leaf m ps => simp [btreeNodeSplit, btreeNodeSplitNparts, splitLeaf_length]
  | parent m ks cs => simp [btreeNodeSplit, btreeNodeSplitNparts, splitParent_length]

end Kivaloo.Kvlds
