import Kivaloo.Kvlds.Merge

/-!
# Writing the tree out and finding it again (kvlds/btree_sync.c, kvlds/btree.c)

`btree_sync` writes the dirty nodes of the tree to the block store in one APPEND.
`serializetree` walks the dirty part of the tree in depth-first postorder, numbering each dirty
node with the next block after `T->nextblk`, recording the least page number of a leaf below it
as its oldest leaf, and serializing it; a parent's page records the page number and oldest leaf
of each child, so children are numbered first.  When the APPEND completes, `makeclean` marks the
dirty nodes clean and the dirty tree becomes the committed tree.  Every second `callback_gc`
asks the block store to free the blocks below the committed root's oldest leaf.

On start-up `btree_init` scans back from the last block of the store for a page with the root
flag, and computes the oldest leaf of the root it finds from the child records of its page.

A page is modelled by what `serialize` writes of the node and the model reads back: the root
flag, the height, and the pairs of a leaf or the separators and child records of a parent.
Functions with assertions return `none` when one fails.
-/

namespace Kivaloo.Kvlds

open Node

/-! ## Pages -/

/-- A child record of a parent page: the child's page number and oldest leaf.  (The record's
third field, the child's page size, is not modelled.) -/
structure ChildRef where
  pagenum : UInt64
  oldestleaf : UInt64
deriving DecidableEq

/-- The contents of a page: the root flag, the height, and the pairs of a leaf or the separators
and child records of a parent.  (The prefix length and the node count a root page carries are
not modelled.) -/
structure Page where
  root : Bool
  height : ℕ
  pairs : List (KVLDSKey × KVLDSKey)
  keys : List KVLDSKey
  children : List ChildRef
deriving DecidableEq

/-- The record a parent page keeps of the child `N`. -/
def Node.childRef (N : Node) : ChildRef := ⟨N.info.pagenum, N.info.oldestleaf⟩

/-- The page `serialize` writes for the node `N`. -/
def Node.page : Node → Page
  | .leaf m ps => ⟨m.root, m.height, ps, [], []⟩
  | .parent m ks cs => ⟨m.root, m.height, [], ks, cs.map Node.childRef⟩

/-- `serialize(T, N, buflen)`: the page of the dirty node `N`, which must have at most
`UINT16_MAX` keys and fit in the buffer. -/
def serialize (N : Node) (buflen : ℕ) : Option Page :=
  if N.info.state = .dirty ∧ N.nkeys ≤ 65535 ∧ serializeSize N ≤ buflen then some N.page
  else none

/-! ## `btree_sync` -/

mutual

/-- `ndirty(N)`: the dirty nodes under `N`; the walk stops at a node that is not dirty. -/
def ndirty : Node → ℕ
  | .leaf m _ => if m.state = .dirty then 1 else 0
  | .parent m _ cs => if m.state = .dirty then 1 + ndirtyList cs else 0

/-- `ndirty` summed over a list of children. -/
def ndirtyList : List Node → ℕ
  | [] => 0
  | c :: cs => ndirty c + ndirtyList cs

end

/-- The minimum loop of `serializetree`, `makeclean` and `btree_init`: start from `init` and
take each value that is smaller. -/
def oldestLoop (init : UInt64) (xs : List UInt64) : UInt64 :=
  xs.foldl (fun acc x => if x < acc then x else acc) init

mutual

/-- `serializetree(T, N, pagelen, nextblk, bufv, pn)`: number and serialize the dirty nodes
under `N` in depth-first postorder.  `bufv` holds the pages serialized so far, so `pn` is its
length; the next dirty node gets block `nextblk + pn`.  The node comes back with its page
number, its oldest leaf and its page size set. -/
def serializetree (pagelen : ℕ) (nextblk : UInt64) : Node → List Page → Option (Node × List Page)
  | .leaf m ps, bufv =>
    if m.state = .dirty then
      let pagenum := nextblk + UInt64.ofNat bufv.length
      let N := Node.leaf { m with pagenum := pagenum, oldestleaf := pagenum } ps
      (serialize N pagelen).map fun pg => (N.cacheSize, bufv ++ [pg])
    else some (.leaf m ps, bufv)
  | .parent m ks cs, bufv =>
    if m.state = .dirty then
      -- the children first
      match serializetreeList pagelen nextblk cs bufv with
      | none => none
      | some r =>
        let pagenum := nextblk + UInt64.ofNat r.2.length
        let oldestleaf := oldestLoop pagenum (r.1.map fun c => c.info.oldestleaf)
        let N := Node.parent { m with pagenum := pagenum, oldestleaf := oldestleaf } ks r.1
        (serialize N pagelen).map fun pg => (N.cacheSize, r.2 ++ [pg])
    else some (.parent m ks cs, bufv)

/-- `serializetree` over the children of a parent, in order. -/
def serializetreeList (pagelen : ℕ) (nextblk : UInt64) :
    List Node → List Page → Option (List Node × List Page)
  | [], bufv => some ([], bufv)
  | c :: cs, bufv =>
    match serializetree pagelen nextblk c bufv with
    | none => none
    | some r => (serializetreeList pagelen nextblk cs r.2).map fun r' => (r.1 :: r'.1, r'.2)

end

mutual

/-- `makeclean(T, N)`: mark the dirty nodes under `N` clean, recording the oldest leaf not
being cleaned.  A shadow node fails the assertion. -/
def makeclean : Node → Option Node
  | .leaf m ps =>
    if m.state = .shadow then none
    else if m.state = .dirty then some (.leaf { m with oldestncleaf := m.pagenum, state := .clean } ps)
    else some (.leaf m ps)
  | .parent m ks cs =>
    if m.state = .shadow then none
    else if m.state = .dirty then
      (makecleanList cs).map fun cs' =>
        .parent { m with oldestncleaf := oldestLoop m.pagenum (cs'.map fun c => c.info.oldestncleaf),
                         state := .clean } ks cs'
    else some (.parent m ks cs)

/-- `makeclean` over the children of a parent. -/
def makecleanList : List Node → Option (List Node)
  | [] => some []
  | c :: cs =>
    match makeclean c with
    | none => none
    | some c' => (makecleanList cs).map fun cs' => c' :: cs'

end

/-- `btree_sync(T)` up to the APPEND: the dirty tree with its page numbers set, and the pages
to write from block `nextblk` on.  Asserts that as many pages were serialized as `ndirty`
counted and that their number fits the APPEND request. -/
def btreeSync (pagelen : ℕ) (nextblk : UInt64) (rootDirty : Node) : Option (Node × List Page) :=
  match serializetree pagelen nextblk rootDirty [] with
  | none => none
  | some r => if r.2.length = ndirty rootDirty ∧ ndirty rootDirty ≤ 4294967295 then some r else none

/-- The committed state of `struct btree` that syncing and collecting read and write. -/
structure BTree where
  rootShadow : Node
  nextblk : UInt64

/-- `callback_append` and `callback_unshadow` after the APPEND of a synced dirty tree reported
`blkno` as the next block: the dirty tree, made clean, becomes the committed tree. -/
def callbackAppend (rootDirty : Node) (blkno : UInt64) : Option BTree :=
  (makeclean rootDirty).map fun R => ⟨R, blkno⟩

/-- The block below which `callback_gc` asks the store to free everything. -/
def callbackGc (T : BTree) : UInt64 := T.rootShadow.info.oldestleaf

/-! ## `btree_init` -/

/-- The root scan of `btree_init`: from block `rootblk` down while `rootblk < nextblk`, fetch
the block (`get` is `btree_node_fetch_try`) and stop at a page with the root flag.  The counter
is unsigned: after block 0 it wraps to `2^64 - 1`, which fails the loop test, so `fuel` is the
number of blocks down to block 0. -/
def rootScan (get : UInt64 → Option Page) (nextblk : UInt64) : ℕ → UInt64 → Option (UInt64 × Page)
  | 0, _ => none
  | fuel + 1, rootblk =>
    if rootblk < nextblk then
      match get rootblk with
      | some pg => if pg.root then some (rootblk, pg) else rootScan get nextblk fuel (rootblk - 1)
      | none => rootScan get nextblk fuel (rootblk - 1)
    else none

/-- `btree_init` looking for the root from the last block `lastblk` the store reports. -/
def btreeInitScan (get : UInt64 → Option Page) (nextblk lastblk : UInt64) :
    Option (UInt64 × Page) :=
  rootScan get nextblk (lastblk.toNat + 1) lastblk

/-- The oldest leaf `btree_init` gives the root page `pg` found at block `rootblk`: for a parent
the least oldest leaf of its child records, starting from the `(uint64_t)(-1)` of `node_alloc`;
for a leaf its own block. -/
def initOldestleaf (rootblk : UInt64) (pg : Page) : UInt64 :=
  if pg.height ≠ 0 then oldestLoop uint64Max (pg.children.map fun c => c.oldestleaf) else rootblk

/-- The tree `btree_init` creates on an empty store: a dirty root leaf with no pairs, which it
then syncs. -/
def initRootLeaf : Node := .leaf { mknodeInfo 0 (leafMlenN []) with root := true } []

end Kivaloo.Kvlds
