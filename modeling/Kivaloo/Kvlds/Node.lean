import Kivaloo.Kvlds.Key

/-!
# B+Tree nodes

`struct node` (kvlds/node.h) as a tree: a leaf holds its key-value pairs, a parent its separator
keys and children.  The model holds every node with its contents, whether or not the C node is
paged in: fetching a page is a no-op on the contents, and what a caller sees of a non-present
node (its cached `pagesize`, its page number) is kept in `NodeInfo` as in C.

The page size of a node (kvlds/serialize.c) is cached in `pagesize` by `serialize_size`, which
computes it only when no size is cached.  A parent's size skips every child that is marked
`merging` together with the separator after it, so that a planned merge is already counted
before it happens.  We model the call `serialize_size(N)` as the value `serializeSize N`
together with the node `N.cacheSize` it leaves behind.
-/

namespace Kivaloo.Kvlds

/-- `NODE_STATE_*`. -/
inductive NodeState
  | clean
  | shadow
  | dirty
deriving DecidableEq, Repr

/-- The fields of `struct node` besides its keys, pairs and children. -/
structure NodeInfo where
  /-- Page number for CLEAN/SHADOW nodes; -1 for DIRTY nodes. -/
  pagenum : UInt64
  /-- Least page number of a leaf under this node; -1 if DIRTY. -/
  oldestleaf : UInt64
  /-- Least page number of a leaf under this node which the cleaner is not handling. -/
  oldestncleaf : UInt64
  /-- The cached page size; `none` is the C value `(uint32_t)(-1)`. -/
  pagesize : Option ℕ
  state : NodeState
  root : Bool
  /-- Set while the node is planned to be merged into the next node. -/
  merging : Bool
  needmerge : Bool
  height : ℕ
  /-- Prefix length which all keys in this subtree have in common. -/
  mlenT : ℕ
  /-- Prefix length which all keys in this leaf have in common. -/
  mlenN : ℕ
deriving DecidableEq

/-- A B+Tree node with its contents. -/
inductive Node where
  | leaf (m : NodeInfo) (pairs : List (KVLDSKey × KVLDSKey))
  | parent (m : NodeInfo) (keys : List KVLDSKey) (children : List Node)

namespace Node

/-- Induction on nodes with a hypothesis for each child of a parent. -/
theorem ind {P : Node → Prop} (leaf : ∀ m ps, P (.leaf m ps))
    (parent : ∀ m ks cs, (∀ c ∈ cs, P c) → P (.parent m ks cs)) (N : Node) : P N :=
  @Node.rec P (fun cs => ∀ c ∈ cs, P c) leaf (fun m ks cs ih => parent m ks cs ih)
    (fun _ h => absurd h List.not_mem_nil)
    (fun c cs hc hcs d hd => by
      rcases List.mem_cons.mp hd with rfl | hd
      · exact hc
      · exact hcs d hd) N

/-- The node's fields other than its contents. -/
def info : Node → NodeInfo
  | leaf m _ => m
  | parent m _ _ => m

/-- Replace the fields other than the contents. -/
def setInfo : Node → NodeInfo → Node
  | leaf _ ps, m => leaf m ps
  | parent _ ks cs, m => parent m ks cs

@[simp] theorem info_leaf (m ps) : (leaf m ps).info = m := rfl
@[simp] theorem info_parent (m ks cs) : (parent m ks cs).info = m := rfl
@[simp] theorem setInfo_leaf (m m' ps) : (leaf m ps).setInfo m' = leaf m' ps := rfl
@[simp] theorem setInfo_parent (m m' ks cs) :
    (parent m ks cs).setInfo m' = parent m' ks cs := rfl
@[simp] theorem info_setInfo (N : Node) (m : NodeInfo) : (N.setInfo m).info = m := by
  cases N <;> rfl

/-- `N->type == NODE_TYPE_LEAF`. -/
def isLeaf : Node → Bool
  | leaf _ _ => true
  | parent _ _ _ => false

@[simp] theorem isLeaf_setInfo (N : Node) (m : NodeInfo) : (N.setInfo m).isLeaf = N.isLeaf := by
  cases N <;> rfl

/-- `N->nkeys`. -/
def nkeys : Node → ℕ
  | leaf _ ps => ps.length
  | parent _ ks _ => ks.length

/-- Mark or unmark the node as being merged into the next one. -/
def setMerging (N : Node) (b : Bool) : Node := N.setInfo { N.info with merging := b }

mutual

/-- The key-value pairs of a subtree, in order. -/
def inorder : Node → List (KVLDSKey × KVLDSKey)
  | leaf _ ps => ps
  | parent _ _ cs => inorderList cs

/-- The key-value pairs of a list of subtrees, in order. -/
def inorderList : List Node → List (KVLDSKey × KVLDSKey)
  | [] => []
  | c :: cs => c.inorder ++ inorderList cs

end

mutual

/-- The number of nodes of a subtree. -/
def count : Node → ℕ
  | leaf _ _ => 1
  | parent _ _ cs => 1 + countList cs

/-- The number of nodes of a list of subtrees. -/
def countList : List Node → ℕ
  | [] => 0
  | c :: cs => c.count + countList cs

end

@[simp] theorem inorderList_eq (cs : List Node) : inorderList cs = (cs.map inorder).flatten := by
  induction cs with
  | nil => rfl
  | cons c cs ih => simp [inorderList, ih]

@[simp] theorem inorder_leaf (m ps) : (leaf m ps).inorder = ps := rfl

@[simp] theorem inorder_parent (m ks cs) :
    (parent m ks cs).inorder = (cs.map inorder).flatten := by
  simp [inorder]

@[simp] theorem inorder_setInfo (N : Node) (m : NodeInfo) : (N.setInfo m).inorder = N.inorder := by
  cases N <;> simp

@[simp] theorem countList_eq (cs : List Node) : countList cs = (cs.map count).sum := by
  induction cs with
  | nil => rfl
  | cons c cs ih => simp [countList, ih]

@[simp] theorem count_leaf (m ps) : (leaf m ps).count = 1 := rfl

@[simp] theorem count_parent (m ks cs) : (parent m ks cs).count = 1 + (cs.map count).sum := by
  simp [count]

@[simp] theorem count_setInfo (N : Node) (m : NodeInfo) : (N.setInfo m).count = N.count := by
  cases N <;> simp

end Node

open Node

/-! ## Page sizes (`serialize_size`, `serialize_merge_size`) -/

/-- `SERIALIZE_OVERHEAD`: magic, key count, height and prefix length. -/
def serializeOverhead : ℕ := 10

/-- `SERIALIZE_ROOT`: the node count a root page carries. -/
def serializeRoot : ℕ := 8

/-- `SERIALIZE_PERCHILD`: page number, oldest leaf and page size of a child. -/
def serializePerchild : ℕ := 20

/-- The header of a page, with the extra root data for a root. -/
def headerLen (root : Bool) : ℕ := serializeOverhead + if root then serializeRoot else 0

/-- Serialized keys and values of a leaf. -/
def pairsSize : List (KVLDSKey × KVLDSKey) → ℕ
  | [] => 0
  | (k, v) :: ps => k.serialSize + v.serialSize + pairsSize ps

/-- Children `0 .. nkeys - 1` of a parent with the separators after them; a child marked
`merging` is skipped with its separator. -/
def parentBodySize : List KVLDSKey → List Node → ℕ
  | k :: ks, c :: cs =>
    (if c.info.merging then 0 else serializePerchild + k.serialSize) + parentBodySize ks cs
  | _, _ => 0

/-- The size `serialize_size` computes when no size is cached. -/
def computeSize : Node → ℕ
  | .leaf m ps => headerLen m.root + pairsSize ps
  | .parent m ks cs => headerLen m.root + parentBodySize ks cs + serializePerchild

/-- The value of `serialize_size(N)`: the cached size if there is one. -/
def serializeSize (N : Node) : ℕ := N.info.pagesize.getD (computeSize N)

/-- The node as `serialize_size(N)` leaves it: its size cached.  (If a size was cached already,
this rewrites the same value.) -/
def Node.cacheSize (N : Node) : Node :=
  N.setInfo { N.info with pagesize := some (serializeSize N) }

/-- `serialize_merge_size(N)`: the page size less the header. -/
def serializeMergeSize (N : Node) : ℕ := serializeSize N - headerLen N.info.root

@[simp] theorem pairsSize_append (ps qs : List (KVLDSKey × KVLDSKey)) :
    pairsSize (ps ++ qs) = pairsSize ps + pairsSize qs := by
  induction ps with
  | nil => simp [pairsSize]
  | cons p ps ih => obtain ⟨k, v⟩ := p; simp [pairsSize, ih]; omega

@[simp] theorem serializeSize_cacheSize (N : Node) : serializeSize N.cacheSize = serializeSize N := by
  simp [Node.cacheSize, serializeSize]

@[simp] theorem cacheSize_info (N : Node) :
    N.cacheSize.info = { N.info with pagesize := some (serializeSize N) } := by
  simp [Node.cacheSize]

@[simp] theorem cacheSize_isLeaf (N : Node) : N.cacheSize.isLeaf = N.isLeaf := by
  simp [Node.cacheSize]

@[simp] theorem cacheSize_inorder (N : Node) : N.cacheSize.inorder = N.inorder := by
  simp [Node.cacheSize]

@[simp] theorem cacheSize_count (N : Node) : N.cacheSize.count = N.count := by
  simp [Node.cacheSize]

/-! ## New nodes (`btree_node_mknode`) and dirty copies (`btree_node_dirty`) -/

/-- `(uint64_t)(-1)`. -/
def uint64Max : UInt64 := -1

/-- The fields of a node made by `btree_node_mknode`: `node_alloc(-1, -1, -1)`, then DIRTY
with the given height.  `node_alloc` sets `needmerge`; the rest of the node is zeroed. -/
def mknodeInfo (height mlenN : ℕ) : NodeInfo where
  pagenum := uint64Max
  oldestleaf := uint64Max
  oldestncleaf := uint64Max
  pagesize := none
  state := .dirty
  root := false
  merging := false
  needmerge := true
  height := height
  mlenT := 0
  mlenN := mlenN

/-- The `mlen_n` that `btree_node_mknode` computes for a leaf: how far its first and last keys
match, or 255 for an empty leaf. -/
def leafMlenN : List (KVLDSKey × KVLDSKey) → ℕ
  | [] => 255
  | p :: ps => kvldskeyMlen p.1 ((p :: ps).getLast (by simp)).1

/-- `btree_node_mkleaf(T, nkeys, pairs)`. -/
def mkleaf (ps : List (KVLDSKey × KVLDSKey)) : Node := .leaf (mknodeInfo 0 (leafMlenN ps)) ps

/-- `btree_node_mkparent(T, height, nkeys, keys, children)`. -/
def mkparent (height : ℕ) (ks : List KVLDSKey) (cs : List Node) : Node :=
  .parent (mknodeInfo height 0) ks cs

/-- The dirty copy that `btree_node_dirty` makes of a clean node: a new node of the same type,
height and contents, inheriting `root`, `mlen_t` and `mlen_n`. -/
def Node.dirtyCopy (N : Node) : Node :=
  N.setInfo { mknodeInfo N.info.height N.info.mlenN with
    root := N.info.root, mlenT := N.info.mlenT }

@[simp] theorem dirtyCopy_inorder (N : Node) : N.dirtyCopy.inorder = N.inorder := by
  simp [Node.dirtyCopy]

@[simp] theorem dirtyCopy_count (N : Node) : N.dirtyCopy.count = N.count := by
  simp [Node.dirtyCopy]

@[simp] theorem dirtyCopy_state (N : Node) : N.dirtyCopy.info.state = .dirty := by
  simp [Node.dirtyCopy, mknodeInfo]

@[simp] theorem dirtyCopy_isLeaf (N : Node) : N.dirtyCopy.isLeaf = N.isLeaf := by
  simp [Node.dirtyCopy]

@[simp] theorem dirtyCopy_height (N : Node) : N.dirtyCopy.info.height = N.info.height := by
  simp [Node.dirtyCopy, mknodeInfo]

@[simp] theorem setMerging_inorder (N : Node) (b : Bool) : (N.setMerging b).inorder = N.inorder := by
  simp [Node.setMerging]

@[simp] theorem setMerging_count (N : Node) (b : Bool) : (N.setMerging b).count = N.count := by
  simp [Node.setMerging]

@[simp] theorem setMerging_merging (N : Node) (b : Bool) : (N.setMerging b).info.merging = b := by
  simp [Node.setMerging]

end Kivaloo.Kvlds
