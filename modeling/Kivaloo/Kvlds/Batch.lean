import Kivaloo.Kvlds.Mutate
import Kivaloo.Kvlds.Balance

/-!
# A batch of modifying requests (kvlds/dispatch_mr.c, kvlds/btree_mlen.c)

`dispatch_mr_launch` finds the leaf of each request in the dirty tree, which between batches is
the committed tree.  When the leaves are in memory, `callback_gotleaves` runs the batch:

* `batch_dirty` goes through the requests in order and, for each request whose leaf is still
  clean and which can change that leaf as it was committed, dirties the leaf;
  `btree_node_dirty` dirties the clean nodes above it as well;
* if the root is still clean, nothing was dirtied, and the responses go out at once;
* otherwise `batch_run` goes through the requests in order again and performs each on the
  mutable copy of its leaf if that leaf was dirtied, recording in `opdone` whether it did
  something; the tree is rebalanced (`btree_balance`), `btree_mlen` sets the prefix lengths of
  the dirty nodes, `btree_sync` writes them out, and `callback_synced` sends the responses.

The C code names a leaf by its address.  The model names it by its position among the leaves,
left to right: `findleafIndex` is the position of the leaf `btree_find_leaf` reaches.  The
order of `B->dirties`, an array sorted by address, does not matter, since each dirty leaf is
handled on its own; the model keeps the order of dirtying.  The cleaner, which `batch_dirty`
lets dirty more nodes, is not modelled.
-/

namespace Kivaloo.Kvlds

open Kivaloo.Lib Node KVLDSKey

/-! ## Leaves by position -/

mutual

/-- The leaves of a subtree, left to right. -/
def leaves : Node → List Node
  | .leaf m ps => [.leaf m ps]
  | .parent _ _ cs => leavesList cs

/-- The leaves of a list of subtrees, left to right. -/
def leavesList : List Node → List Node
  | [] => []
  | c :: cs => leaves c ++ leavesList cs

end

mutual

/-- The position among the leaves of `N` of the leaf that `btree_find_leaf` reaches for the
key `k`, descending through `btree_find_child`. -/
def findleafIndex (k : KVLDSKey) : Node → ℕ
  | .leaf _ _ => 0
  | .parent m ks cs => findleafIndexChild k cs (btreeFindChild (.parent m ks cs) k)

/-- The position of the leaf reached in child number `i` of the list, counting the leaves of
the children before it. -/
def findleafIndexChild (k : KVLDSKey) : List Node → ℕ → ℕ
  | [], _ => 0
  | c :: _, 0 => findleafIndex k c
  | c :: cs, i + 1 => (leaves c).length + findleafIndexChild k cs i

end

mutual

/-- The subtree with its leaf number `i` replaced by `f` of it, each node on the way down
replaced by `g` of it after its child; a position past the leaves changes nothing. -/
def alongLeaf (g f : Node → Node) : Node → ℕ → Node
  | .leaf m ps, 0 => f (.leaf m ps)
  | .leaf m ps, _ + 1 => .leaf m ps
  | .parent m ks cs, i =>
    if i < (leavesList cs).length then g (.parent m ks (alongLeafList g f cs i))
    else .parent m ks cs

/-- `alongLeaf` in the child that holds leaf number `i` of the list. -/
def alongLeafList (g f : Node → Node) : List Node → ℕ → List Node
  | [], _ => []
  | c :: cs, i =>
    if i < (leaves c).length then alongLeaf g f c i :: cs
    else c :: alongLeafList g f cs (i - (leaves c).length)

end

/-- A clean node becomes its dirty copy; a dirty node stays. -/
def dirtyIfClean (N : Node) : Node := if N.info.state = .clean then N.dirtyCopy else N

/-- `btree_node_dirty(T, N)` on the clean leaf number `i`: the leaf and the clean nodes above it
are replaced by dirty copies, the dirty copy of a parent holding the dirty copy of its child. -/
def btreeNodeDirty (N : Node) (i : ℕ) : Node := alongLeaf dirtyIfClean dirtyIfClean N i

/-! ## `batch_dirty` -/

/-- The loop of `batch_dirty` over the requests: the dirty tree and the positions of the leaves
dirtied so far.  A request's leaf is dirtied when it is still clean and `btree_find_kvpair`
finds there what the request needs to have an effect. -/
def batchDirtyLoop (R : Node) : List MRequest → Node → List ℕ → Node × List ℕ
  | [], T, ds => (T, ds)
  | r :: rs, T, ds =>
    let i := findleafIndex r.key R
    match (leaves T)[i]? with
    | some L =>
      if L.info.state = .clean ∧ batchDirtyNeeds r (btreeFindKvpair L r.key) = true then
        batchDirtyLoop R rs (btreeNodeDirty T i) (ds ++ [i])
      else batchDirtyLoop R rs T ds
    | none => batchDirtyLoop R rs T ds

/-- `batch_dirty(B)` on the committed tree `R`: the dirty tree and the dirtied leaves
`B->dirties`. -/
def batchDirty (R : Node) (rs : List MRequest) : Node × List ℕ := batchDirtyLoop R rs R []

/-! ## `batch_run` -/

/-- The request loop of `batch_run`: each request is performed on the mutable copy of its leaf,
if its leaf was dirtied (has a mutable copy).  Returns the mutable leaves and `opdone` for each
request. -/
def batchRunLoop (R : Node) :
    List MRequest → (ℕ → Option MutableLeaf) → (ℕ → Option MutableLeaf) × List Bool
  | [], mls => (mls, [])
  | r :: rs, mls =>
    let i := findleafIndex r.key R
    match mls i with
    | some L =>
      let res := batchRunReq r L
      let rest := batchRunLoop R rs (Function.update mls i (some res.1))
      (rest.1, res.2 :: rest.2)
    | none =>
      let rest := batchRunLoop R rs mls
      (rest.1, false :: rest.2)

/-- `batch_run(B)` on the dirty tree `T` with the dirtied leaves `ds`: `btree_mutate_mutable` on
each dirtied leaf, the request loop, and `btree_mutate_immutable` on each dirtied leaf.  Returns
the dirty tree and `opdone` for each request. -/
def batchRun (R T : Node) (ds : List ℕ) (rs : List MRequest) : Node × List Bool :=
  let mls₀ : ℕ → Option MutableLeaf := fun i =>
    if i ∈ ds then ((leaves T)[i]?).map btreeMutateMutable else none
  let run := batchRunLoop R rs mls₀
  (ds.foldl (fun T' i =>
      match run.1 i with
      | some L => alongLeaf id (fun _ => L.toNode) T' i
      | none => T') T,
    run.2)

/-! ## `btree_mlen` -/

/-- The prefix length `mlen_traverse` stores for the range `[start, end)`: zero when either end
is the end of the key space. -/
def mlenOf : Option KVLDSKey → Option KVLDSKey → ℕ
  | some s, some e => kvldskeyMlen s e
  | _, _ => 0

mutual

/-- `mlen_traverse(N, start, end)`: set `mlen_t` in the dirty nodes of the subtree `N`, which is
responsible for the keys from `start` below `endKey` (`none` for the ends of the key space). -/
def mlenTraverse (start endKey : Option KVLDSKey) : Node → Node
  | .leaf m ps =>
    if m.state = .dirty then .leaf { m with mlenT := mlenOf start endKey } ps else .leaf m ps
  | .parent m ks cs =>
    if m.state = .dirty then
      .parent { m with mlenT := mlenOf start endKey } ks (mlenTraverseList start endKey ks cs)
    else .parent m ks cs

/-- The loop of `mlen_traverse` over children `0 .. nkeys`: child `i` is responsible for the
keys from `keys[i-1]` (or `start`) below `keys[i]` (or `endKey`). -/
def mlenTraverseList (start endKey : Option KVLDSKey) : List KVLDSKey → List Node → List Node
  | _, [] => []
  | [], c :: cs => mlenTraverse start endKey c :: cs
  | k :: ks, c :: cs => mlenTraverse start (some k) c :: mlenTraverseList (some k) endKey ks cs

end

/-- `btree_mlen(T)`: from the dirty root, responsible for the whole key space. -/
def btreeMlen (R : Node) : Node := mlenTraverse none none R

/-! ## The batch -/

/-- The statuses `callback_synced` sends: one for each request, none for SET and DELETE. -/
def callbackSynced (rs : List MRequest) (opdone : List Bool) : List (Option ℕ) :=
  List.zipWith responseStatus rs opdone

/-- A batch of the requests `rs` on the committed tree `R` with `nnodes` nodes, with pages of
`pagelen` bytes: the dirty tree and node count handed to `btree_sync` (`none` when nothing was
dirtied and the batch skips to the responses), and the statuses sent.  The outer `none` is an
assertion of `btree_balance`. -/
def dispatchMR (pagelen : ℕ) (R : Node) (nnodes : ℕ) (rs : List MRequest) :
    Option (Option (Node × ℕ) × List (Option ℕ)) :=
  let dirtied := batchDirty R rs
  if dirtied.1.info.state = .clean then some (none, callbackSynced rs (rs.map fun _ => false))
  else
    let run := batchRun R dirtied.1 dirtied.2 rs
    (btreeBalance pagelen run.1 nnodes).map fun b =>
      (some (btreeMlen b.1, b.2), callbackSynced rs run.2)

end Kivaloo.Kvlds
