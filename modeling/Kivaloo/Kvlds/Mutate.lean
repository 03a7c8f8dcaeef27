import Kivaloo.Kvlds.Range

/-!
# Modifying a leaf (kvlds/btree_mutate.c, the request loops of kvlds/dispatch_mr.c)

A batch of modifying requests changes the leaves it dirties in three steps.
`btree_mutate_mutable` gives a dirty leaf a hash table for new keys.  While the batch runs, a
deleted pair stays in the sorted array of pairs with a NULL value and a new key goes into the
hash table; `btree_mutate_find` looks for a key in the sorted array by binary search, then in the
hash table, and returns the slot where it is or would go.  `btree_mutate_immutable` drops the
deleted pairs, sorts the new ones and merges them into the array.

`batch_dirty` decides from the committed leaf whether a request can change it.  `batch_run`
decides from the mutable leaf what a request does: add a pair, modify or delete a value, or
nothing; a request for which it does something is answered with status 0.

The hash table is modelled by its pairs in the order they were added; its slots, stored hashes
and rehashing are not.  `kvpair_sort` is a `qsort` by `kvldskey_cmp2`, modelled by an insertion
sort by the same comparison: on distinct keys both give the sorted order.
-/

namespace Kivaloo.Kvlds

open Kivaloo.Lib Node KVLDSKey

/-! ## Requests -/

/-- The modifying requests, `PROTO_KVLDS_SET` to `PROTO_KVLDS_CAD`. -/
inductive MRType
  | set
  | cas
  | add
  | modify
  | delete
  | cad
deriving DecidableEq, Repr

/-- The fields of a modifying request that a batch reads. -/
structure MRequest where
  type : MRType
  key : KVLDSKey
  /-- The value to store (SET, CAS, ADD, MODIFY). -/
  value : KVLDSKey
  /-- The value to compare with (CAS, CAD). -/
  oval : KVLDSKey

/-- The switch of `batch_dirty`: whether a request can change the committed leaf, given the pair
`btree_find_kvpair` finds for its key there. -/
def batchDirtyNeeds (R : MRequest) (kv : Option (KVLDSKey × KVLDSKey)) : Bool :=
  match R.type, kv with
  -- a SET has effect unless the value is the same, which is not checked
  | .set, _ => true
  | .add, kv => kv.isNone
  | .modify, kv => kv.isSome
  | .delete, kv => kv.isSome
  | .cas, some p => kvldskeyCmp R.oval p.2 == 0
  | .cas, none => false
  | .cad, some p => kvldskeyCmp R.oval p.2 == 0
  | .cad, none => false

/-- What the loop of `batch_run` does for a request: `OP_NONE`, `OP_ADD`, `OP_MODIFY` or
`OP_DELETE`. -/
inductive MutateOp
  | none
  | add
  | modify
  | delete
deriving DecidableEq

/-- The switch of `batch_run`: the operation for a request, given the value `pos->v` stored at
its key (`none` for absent or deleted). -/
def batchRunOp (R : MRequest) (val : Option KVLDSKey) : MutateOp :=
  match R.type, val with
  | .set, _ => .add
  | .cas, some v => if kvldskeyCmp R.oval v = 0 then .modify else .none
  | .cas, none => .none
  | .add, some _ => .none
  | .add, none => .add
  | .modify, some _ => .modify
  | .modify, none => .none
  | .delete, some _ => .delete
  | .delete, none => .none
  | .cad, some v => if kvldskeyCmp R.oval v = 0 then .delete else .none
  | .cad, none => .none

/-- The status `callback_synced` sends for a request whose operation was done or not: none for
SET and DELETE, whose responses carry no status. -/
def responseStatus (R : MRequest) (opdone : Bool) : Option ℕ :=
  match R.type with
  | .set | .delete => none
  | .cas | .add | .modify | .cad => some (if opdone then 0 else 1)

/-! ## The mutable leaf -/

/-- A dirty leaf between `btree_mutate_mutable` and `btree_mutate_immutable`. -/
structure MutableLeaf where
  /-- The fields of the leaf; `mlenN` is lowered as keys are added. -/
  info : NodeInfo
  /-- The sorted array of pairs, a deleted value being `none`. -/
  pairs : List (KVLDSKey × Option KVLDSKey)
  /-- The pairs of the hash table, in the order they were added. -/
  hash : List (KVLDSKey × Option KVLDSKey)

/-- `btree_mutate_mutable(N)`: an empty hash table next to the pairs of the leaf `N`. -/
def btreeMutateMutable (N : Node) : MutableLeaf :=
  ⟨N.info, N.leafPairs.map fun p => (p.1, some p.2), []⟩

/-- The slot `btree_mutate_find` returns: a pair of the sorted array, a used slot of the hash
table, or a free slot of the hash table (`pos->k == NULL`). -/
inductive Slot
  | pairs (i : ℕ)
  | hash (i : ℕ)
  | free
deriving DecidableEq

/-- `btree_mutate_find(N, k)`: the pair of `k` in the sorted array (the binary search of
`btree_find_kvpair`, by `kvldskey_cmp2` from `mlen_t`), else its slot in the hash table
(`kvhash_search`, by `kvldskey_cmp`). -/
def btreeMutateFind (L : MutableLeaf) (k : KVLDSKey) : Slot :=
  match bsearch (fun p => kvldskeyCmp2 k p.1 L.info.mlenT) L.pairs (empty, none) with
  | .hit mid => .pairs mid
  | .miss _ =>
    match L.hash.findIdx? fun p => kvldskeyCmp k p.1 == 0 with
    | some i => .hash i
    | none => .free

/-- `pos->v`: the value in a slot, `none` for NULL. -/
def MutableLeaf.value (L : MutableLeaf) : Slot → Option KVLDSKey
  | .pairs i => L.pairs[i]?.bind Prod.snd
  | .hash i => L.hash[i]?.bind Prod.snd
  | .free => none

/-- `pos->v = v` in a used slot. -/
def MutableLeaf.setValue (L : MutableLeaf) (s : Slot) (v : Option KVLDSKey) : MutableLeaf :=
  match s with
  | .pairs i => { L with pairs := L.pairs.modify i fun p => (p.1, v) }
  | .hash i => { L with hash := L.hash.modify i fun p => (p.1, v) }
  | .free => L

/-- `btree_mutate_add(N, pos, k, v)`: lower `mlen_n` to how far `k` matches the first key of the
sorted array (to zero when the array is empty) and put the pair in the free slot of the hash
table. -/
def btreeMutateAdd (L : MutableLeaf) (k v : KVLDSKey) : MutableLeaf where
  info := { L.info with
    mlenN := match L.pairs with
      | [] => 0
      | p :: _ => if kvldskeyMlen k p.1 < L.info.mlenN then kvldskeyMlen k p.1 else L.info.mlenN }
  pairs := L.pairs
  hash := L.hash ++ [(k, some v)]

/-- One round of the loop of `batch_run` on the mutable leaf of the request: the leaf after the
operation, and whether an operation was done (`req->opdone`). -/
def batchRunReq (R : MRequest) (L : MutableLeaf) : MutableLeaf × Bool :=
  let pos := btreeMutateFind L R.key
  match batchRunOp R (L.value pos) with
  | .add =>
    match pos with
    | .free => (btreeMutateAdd L R.key R.value, true)
    -- the key is present with a NULL value: the MODIFY path
    | _ => (L.setValue pos (some R.value), true)
  | .modify => (L.setValue pos (some R.value), true)
  | .delete => (L.setValue pos none, true)
  | .none => (L, false)

/-- The merge loop of `btree_mutate_immutable`: each pair of the sorted array that has a value is
copied after the new pairs with smaller keys (by `kvldskey_cmp2` from `mlen_n`); the new pairs
left over stay at the end. -/
def immutableMerge (mlen : ℕ) : List (KVLDSKey × Option KVLDSKey) → List (KVLDSKey × KVLDSKey) →
    List (KVLDSKey × KVLDSKey)
  | [], hs => hs
  | (_, none) :: ps, hs => immutableMerge mlen ps hs
  | (k, some v) :: ps, hs =>
    hs.takeWhile (fun h => 0 < kvldskeyCmp2 k h.1 mlen) ++
      (k, v) :: immutableMerge mlen ps (hs.dropWhile fun h => 0 < kvldskeyCmp2 k h.1 mlen)

/-- `btree_mutate_immutable(N)`: the pairs of the leaf after the batch, the new pairs with values
sorted and merged into the pairs of the array with values. -/
def btreeMutateImmutable (L : MutableLeaf) : List (KVLDSKey × KVLDSKey) :=
  immutableMerge L.info.mlenN L.pairs
    ((L.hash.filterMap fun p => p.2.map fun v => (p.1, v)).insertionSort
      fun x y => kvldskeyCmp2 x.1 y.1 L.info.mlenN ≤ 0)

/-- The dirty leaf after the batch. -/
def MutableLeaf.toNode (L : MutableLeaf) : Node := .leaf L.info (btreeMutateImmutable L)

end Kivaloo.Kvlds
