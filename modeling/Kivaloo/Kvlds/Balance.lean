import Kivaloo.Kvlds.Split
import Kivaloo.Kvlds.Merge

/-!
# Rebalancing (kvlds/btree_balance.c)

`btree_balance` restores the balancing conditions of kvlds/DESIGN after a batch of leaf
modifications.  It splits oversized nodes in depth-first postorder (`splitchildren`), adding
roots while the root is oversized (`splitroot`); then it repeats passes which plan merges of
runs of small siblings (`planmergenode`) and perform them (`domergenode`) until a pass merges
nothing; finally it removes roots with a single child (`deroot`).

Each function takes the tree's node count `T->nnodes` and returns its new value.  A function
that contains an `assert` returns `none` when the assertion fails.  The fetches that
`planmergenode` issues for non-present siblings, the node locks and the parent pointers are not
modelled: every node's contents are in the model.

The plan/merge passes are run by `balanceLoop` on a fuel argument; `btreeBalance` gives it the
node count plus one, which is enough because every pass that asks for another pass has merged
some nodes.
-/

namespace Kivaloo.Kvlds

open Node

/-! ## The limits `btree_init` sets -/

/-- `PROTO_LBS_BLKLEN_MIN`. -/
def blklenMin : ℕ := 512

/-- `PROTO_LBS_BLKLEN_MAX`. -/
def blklenMax : ℕ := 131072

/-- The checks of `btree_init` on the block size the LBS reports and on the maximum key and
value lengths: a pair must fit in a third of a page, and a parent with three keys of the
maximum length (and four children) in the split threshold. -/
def btreeInitAccepts (pagelen keylen vallen : ℕ) : Bool :=
  blklenMin ≤ pagelen && pagelen ≤ blklenMax && keylen + vallen + 2 ≤ pagelen / 3 &&
    keylen * 3 + 3 + serializePerchild * 4 + serializeOverhead ≤ pagelen * 2 / 3

/-! ## Splitting -/

/-- A child is split when it is oversized; the test calls `serialize_size`, which caches. -/
def oversized (pagelen : ℕ) (c : Node) : Bool := decide (serializeSize c > pagelen)

/-- The number of children a child turns into in `splitchildren`. -/
def childParts (pagelen : ℕ) (c : Node) : ℕ :=
  if oversized pagelen c then btreeNodeSplitNparts pagelen c else 1

/-- The building loop of `splitchildren`: split each oversized child, placing its parts and
its promoted separators, then the separator after the child.  Returns the new keys, the new
children and the number of nodes added; `none` if `btree_node_split` is asked to split a node
which is not dirty. -/
def splitBuild (pagelen : ℕ) : List KVLDSKey → List Node → Option (List KVLDSKey × List Node × ℕ)
  | _, [] => some ([], [], 0)
  | ks, c :: cs =>
    let sep := ks.take 1
    match splitBuild pagelen (ks.drop 1) cs with
    | none => none
    | some (ks', cs', n) =>
      if oversized pagelen c then
        if c.info.state = .dirty then
          let r := btreeNodeSplit pagelen c
          some (r.1 ++ sep ++ ks', r.2 ++ cs', r.2.length - 1 + n)
        else none
      else some (sep ++ ks', c :: cs', n)

/-- The part of `splitchildren(T, N)` after the recursion into the children `cs`: count the
children after splitting (caching the children's sizes), and if the count changed, build the
new key and child vectors.  `assert(new_nkeys > N->nkeys)` checks that the count grew, and
`assert(new_nkeys == j - 1)` compares it with what was built. -/
def splitchildrenBody (pagelen : ℕ) (m : NodeInfo) (ks : List KVLDSKey) (cs : List Node)
    (nnodes : ℕ) : Option (Node × ℕ) :=
  let cs := cs.map Node.cacheSize
  let newNkeys := (cs.map (childParts pagelen)).sum - 1
  if newNkeys = ks.length then some (.parent m ks cs, nnodes)
  -- assert(new_nkeys > N->nkeys)
  else if newNkeys < ks.length then none
  else
    match splitBuild pagelen ks cs with
    | none => none
    | some (ks', cs', n) =>
      if newNkeys = cs'.length - 1 then some (.parent m ks' cs', nnodes + n) else none

mutual

/-- `splitchildren(T, N)`: split the oversized descendants of a dirty parent, children
first. -/
def splitchildren (pagelen : ℕ) : Node → ℕ → Option (Node × ℕ)
  | .leaf m ps, nnodes => some (.leaf m ps, nnodes)
  | .parent m ks cs, nnodes =>
    if m.state = .dirty then
      match splitchildrenList pagelen cs nnodes with
      | none => none
      | some (cs', nnodes') => splitchildrenBody pagelen m ks cs' nnodes'
    else some (.parent m ks cs, nnodes)

/-- `splitchildren` on each child in turn. -/
def splitchildrenList (pagelen : ℕ) : List Node → ℕ → Option (List Node × ℕ)
  | [], nnodes => some ([], nnodes)
  | c :: cs, nnodes =>
    match splitchildren pagelen c nnodes with
    | none => none
    | some (c', nnodes₁) =>
      match splitchildrenList pagelen cs nnodes₁ with
      | none => none
      | some (cs', nnodes₂) => some (c' :: cs', nnodes₂)

end

/-- `splitroot(T, N)`: a new root of height one more, whose children are the parts of `N`.
The new root counts as a node, as do the extra parts. -/
def splitroot (pagelen : ℕ) (N : Node) (nnodes : ℕ) : Option (Node × ℕ) :=
  let nkeys := btreeNodeSplitNparts pagelen N - 1
  -- assert(N->height + 1 < 64)
  if N.info.height + 1 < 64 then
    -- btree_node_split asserts that N is dirty; N->root is cleared first, which the split
    -- does not read
    if N.info.state = .dirty then
      let r := btreeNodeSplit pagelen N
      -- assert(nparts == R->nkeys + 1)
      if r.2.length = nkeys + 1 then
        some (.parent { mknodeInfo (N.info.height + 1) 0 with root := true } r.1 r.2,
          nnodes + 1 + (r.2.length - 1))
      else none
    else none
  else none

/-- The loop of `splittree`: while the root is oversized, split it.  `serialize_size` caches
the root's size on each test.  The assertion in `splitroot` bounds the number of rounds by 64,
so the fuel 64 is never exhausted. -/
def splitrootLoop (pagelen : ℕ) : ℕ → Node → ℕ → Option (Node × ℕ)
  | 0, _, _ => none
  | fuel + 1, R, nnodes =>
    if serializeSize R > pagelen then
      match splitroot pagelen R.cacheSize nnodes with
      | none => none
      | some (R', nnodes') => splitrootLoop pagelen fuel R' nnodes'
    else some (R.cacheSize, nnodes)

/-- `splittree(T)`. -/
def splittree (pagelen : ℕ) (R : Node) (nnodes : ℕ) : Option (Node × ℕ) :=
  match splitchildren pagelen R nnodes with
  | none => none
  | some (R', nnodes') => splitrootLoop pagelen 64 R' nnodes'

/-! ## Planning merges -/

/-- The state of the right-to-left scan of `planmergenode`: the size of the node the run
would merge into, whether the run has a dirty node, and whether the children are leaves. -/
structure PlanState where
  plen : ℕ
  gotdirty : Bool
  leafchild : Bool

/-- `nomerge:` a run restarts at child `c`. -/
def PlanState.restart (c : Node) : PlanState :=
  ⟨serializeSize c, decide (c.info.state = .dirty), c.isLeaf⟩

/-- One step of the scan at child `c`, followed by separator `k`: mark `c` as merging into
the next child if the run has a dirty node and stays within `maxplen`; otherwise restart the
run at `c`.  Every path calls `serialize_size` on `c`, which caches. -/
def planStep (maxplen : ℕ) (st : PlanState) (k : KVLDSKey) (c : Node) : Node × PlanState :=
  let c := c.cacheSize
  let dirty := decide (c.info.state = .dirty)
  let gotdirty := st.gotdirty || dirty
  let leafchild := if dirty then c.isLeaf else st.leafchild
  if gotdirty then
    let plen := st.plen + (if leafchild then 0 else k.serialSize) + serializeMergeSize c
    if plen > maxplen then (c, .restart c) else (c.setMerging true, ⟨plen, gotdirty, leafchild⟩)
  else (c, .restart c)

/-- The scan over `(keys[i], children[i])` for `i = nkeys - 1` down to `0`. -/
def planScan (maxplen : ℕ) : PlanState → List (KVLDSKey × Node) → List Node
  | _, [] => []
  | st, (k, c) :: rest =>
    let r := planStep maxplen st k c
    r.1 :: planScan maxplen r.2 rest

/-- The scan of `planmergenode` over the children of a dirty parent: the last child cannot
merge into a later one and starts the first run. -/
def planChildren (maxplen : ℕ) (ks : List KVLDSKey) (cs : List Node) : List Node :=
  match cs.reverse with
  | [] => []
  | last :: initRev =>
    (planScan maxplen (.restart last) (ks.reverse.zip initRev)).reverse ++ [last.cacheSize]

mutual

/-- `planmergenode(B, N)` with `maxplen = (pagelen * 2) / 3`: plan merges under the children
of a dirty parent, then among the children. -/
def planmergenode (maxplen : ℕ) : Node → Node
  | .leaf m ps => .leaf m ps
  | .parent m ks cs =>
    if m.state = .dirty then .parent m ks (planChildren maxplen ks (planmergenodeList maxplen cs))
    else .parent m ks cs

/-- `planmergenode` on each child. -/
def planmergenodeList (maxplen : ℕ) : List Node → List Node
  | [] => []
  | c :: cs => planmergenode maxplen c :: planmergenodeList maxplen cs

end

/-! ## Performing merges -/

/-- The dirtying loop of `domergenode`: a child in a run (marked, or following a marked child)
that is not dirty is replaced by its dirty copy, which takes over the `merging` mark. -/
def dirtyRuns : Bool → List Node → List Node
  | _, [] => []
  | prev, c :: cs =>
    let c' := if (c.info.merging || prev) && c.info.state ≠ .dirty then
      c.dirtyCopy.setMerging c.info.merging else c
    c' :: dirtyRuns c.info.merging cs

/-- The compaction loop of `domergenode` over the children, each with the separator after
it (none after the last child).  `run` and `runKeys` hold the marked children since the last
unmarked one and the separators after them; an unmarked child closes the run, which is merged
with it by `btree_node_merge`.  Returns the children, the keys and the number of nodes the
merges removed.  A run still open after the last child is dropped, as in C. -/
def compactRuns (run : List Node) (runKeys : List KVLDSKey) :
    List (Node × Option KVLDSKey) → List Node × List KVLDSKey × ℕ
  | [] => ([], [], 0)
  | (c, k) :: rest =>
    if c.info.merging then compactRuns (run ++ [c]) (runKeys ++ k.toList) rest
    else
      let out := if run = [] then c else btreeNodeMerge (run ++ [c]) runKeys
      let r := compactRuns [] [] rest
      (out :: r.1, k.toList ++ r.2.1, run.length + r.2.2)

/-- The part of `domergenode(B, N)` after the recursion into the children `cs` of a dirty
parent: `needmerge` records whether a child needs another pass or is about to be merged; if
some child is marked, dirty the runs and compact them, and forget the cached page size. -/
def domergeBody (m : NodeInfo) (ks : List KVLDSKey) (cs : List Node) (nnodes : ℕ) : Node × ℕ :=
  if cs.any (·.info.merging) then
    let r := compactRuns [] [] ((dirtyRuns false cs).zip (ks.map some ++ [none]))
    (.parent { m with needmerge := true, pagesize := none } r.2.1 r.1, nnodes - r.2.2)
  else (.parent { m with needmerge := cs.any (·.info.needmerge) } ks cs, nnodes)

mutual

/-- `domergenode(B, N)`: perform the planned merges in a subtree, children first.
`needmerge` is cleared on every node visited. -/
def domergenode : Node → ℕ → Node × ℕ
  | .leaf m ps, nnodes => (.leaf { m with needmerge := false } ps, nnodes)
  | .parent m ks cs, nnodes =>
    if m.state = .dirty then
      let r := domergenodeList cs nnodes
      domergeBody { m with needmerge := false } ks r.1 r.2
    else (.parent { m with needmerge := false } ks cs, nnodes)

/-- `domergenode` on each child in turn. -/
def domergenodeList : List Node → ℕ → List Node × ℕ
  | [], nnodes => ([], nnodes)
  | c :: cs, nnodes =>
    let r₁ := domergenode c nnodes
    let r₂ := domergenodeList cs r₁.2
    (r₁.1 :: r₂.1, r₂.2)

end

/-! ## Removing extraneous roots and the whole algorithm -/

/-- The loop of `deroot`: while the root is a parent with a single child, promote the child;
`promoted` records whether the current root was promoted, in which case it is marked as a
root and its cached size (computed as a non-root) is forgotten. -/
def derootFrom (promoted : Bool) : Node → ℕ → Node × ℕ
  | .parent _ [] (c :: _), nnodes => derootFrom true c (nnodes - 1)
  | N, nnodes =>
    (if promoted then N.setInfo { N.info with root := true, pagesize := none } else N, nnodes)

/-- `deroot(B)`. -/
def deroot (R : Node) (nnodes : ℕ) : Node × ℕ := derootFrom false R nnodes

/-- The passes of `planmerge` and `domerge`: plan, merge, and repeat while the root's
`needmerge` is set; then `deroot`. -/
def balanceLoop (pagelen : ℕ) : ℕ → Node → ℕ → Option (Node × ℕ)
  | 0, _, _ => none
  | fuel + 1, R, nnodes =>
    let r := domergenode (planmergenode (pagelen * 2 / 3) R) nnodes
    if r.1.info.needmerge then balanceLoop pagelen fuel r.1 r.2 else some (deroot r.1 r.2)

/-- `btree_balance(T, callback, cookie)`: the new dirty root and node count, or `none` when an
assertion stops the program. -/
def btreeBalance (pagelen : ℕ) (R : Node) (nnodes : ℕ) : Option (Node × ℕ) :=
  match splittree pagelen R nnodes with
  | none => none
  | some (R', nnodes') => balanceLoop pagelen (R'.count + 1) R' nnodes'

end Kivaloo.Kvlds
