import Kivaloo.Lib.BinarySearch
import Kivaloo.Kvlds.Merge

/-!
# Non-modifying requests (kvlds/btree_find.c, kvlds/dispatch_nmr.c)

A GET descends from the committed root to the leaf responsible for its key and looks the key up
there.  A RANGE descends only to a node of height at most one responsible for its start key,
remembering the separator that bounds the range of that node from above (`btree_find_range`),
and then reads leaves under that node: the leaf itself at height zero, or consecutive children
from the one responsible for the start key at height one, as many as the response budget allows
at one leaf per page of budget.  Each leaf read copies the pairs in the requested range into a
heap until the budget is used up; when the last leaf has been read, `rangedone` sends the pairs
in key order together with the key at which the next request should start.

Both descents use `btree_find_child`, a binary search over the separators of a parent with
`kvldskey_cmp2` from the prefix the node's subtree shares (`Lib.bsearch`).  Leaves are fetched
asynchronously, so the order in which `callback_range_gotleaf` sees them is a parameter of the
model.  The ptrheap of pairs is modelled by its contents; draining it with
`ptrheap_getmin`/`ptrheap_deletemin` yields them sorted by `kvpair_cmp`.
-/

namespace Kivaloo.Kvlds

open Kivaloo.Lib Node KVLDSKey

/-! ## Searching a node -/

/-- `btree_find_kvpair(N, k)`: binary search of the pairs of the leaf `N` for the key `k`. -/
def btreeFindKvpair (N : Node) (k : KVLDSKey) : Option (KVLDSKey × KVLDSKey) :=
  match bsearch (fun p => kvldskeyCmp2 k p.1 N.info.mlenT) N.leafPairs (empty, empty) with
  | .hit mid => N.leafPairs[mid]?
  | .miss _ => none

/-- `btree_find_child(N, k)`: the number of the child of the parent `N` responsible for the
key `k`, found by binary search of its separators. -/
def btreeFindChild (N : Node) (k : KVLDSKey) : ℕ :=
  (bsearch (fun x => kvldskeyCmp2 k x N.info.mlenT) N.parentKeys empty).upper

/-! ## Descending -/

mutual

/-- `findleaf`: descend from `N` towards the key `k` while the node is a parent of height above
`h`.  The end key `e` is `none` for `btree_find_leaf`; for `btree_find_range` it starts as the
empty key and becomes the separator after each child descended into, unless that child is the
last.  `none` stands for a child number past the children, which a well-formed parent never
gives. -/
def findleaf (h : ℕ) (k : KVLDSKey) : Node → Option KVLDSKey → Option (Node × Option KVLDSKey)
  | .leaf m ps, e => some (.leaf m ps, e)
  | .parent m ks cs, e =>
    if m.height ≤ h then some (.parent m ks cs, e)
    else
      let i := btreeFindChild (.parent m ks cs) k
      findleafChild h k cs i (if i < ks.length then e.map fun _ => ks.getD i empty else e)

/-- Descend into child number `i` of the list. -/
def findleafChild (h : ℕ) (k : KVLDSKey) :
    List Node → ℕ → Option KVLDSKey → Option (Node × Option KVLDSKey)
  | [], _, _ => none
  | c :: _, 0, e => findleaf h k c e
  | _ :: cs, i + 1, e => findleafChild h k cs i e

end

/-- `btree_find_leaf(T, N, k)`: the leaf under `N` where the key `k` belongs. -/
def btreeFindLeaf (N : Node) (k : KVLDSKey) : Option Node :=
  (findleaf 0 k N none).map Prod.fst

/-- `btree_find_range(T, N, k, h)`: a node of height at most `h` under `N` responsible for a
range including the key `k`, and the end of that range (empty for the end of the key space). -/
def btreeFindRange (N : Node) (k : KVLDSKey) (h : ℕ) : Option (Node × KVLDSKey) :=
  (findleaf h k N (some empty)).map fun r => (r.1, r.2.getD empty)

/-! ## GET -/

/-- The value `callback_get_gotleaf` sends for a GET of `k` on the committed root `root`:
`some v` with status 0, or `none` with status 1 (the outer `none` is an impossible descent). -/
def dispatchGet (root : Node) (k : KVLDSKey) : Option (Option KVLDSKey) :=
  (btreeFindLeaf root k).map fun L => (btreeFindKvpair L k).map Prod.snd

/-! ## RANGE -/

/-- The fields of a RANGE request. -/
structure RangeRequest where
  rangeStart : KVLDSKey
  rangeEnd : KVLDSKey
  rangeMax : ℕ

/-- The RANGE state of `struct nmr_cookie`; `heap` is the contents of `C->H` in the order
added. -/
structure RangeCookie where
  /-- `C->end`: the end of the range the leaves read cover (empty: the end of the key space). -/
  endKey : KVLDSKey
  mlen : ℕ
  nkeys : ℕ
  rlen : ℕ
  leavesleft : ℕ
  heap : List (KVLDSKey × KVLDSKey)

/-- The response `proto_kvlds_response_range` sends; `pairs` are the keys and values arrays. -/
structure RangeResponse where
  nkeys : ℕ
  next : KVLDSKey
  pairs : List (KVLDSKey × KVLDSKey)
deriving DecidableEq

/-- The leaf loop of `callback_range_gotnode` from child `i`, with `n` steps left before
`stop`: descend into child `i` while `i ≤ nkeys`, and stop after a child whose separator lies
above the end of the requested range.  Returns the children descended into and the final `i`. -/
def gotnodeLoop (rangeEnd : KVLDSKey) (ks : List KVLDSKey) (cs : List Node) :
    ℕ → ℕ → List Node × ℕ
  | 0, i => ([], i)
  | n + 1, i =>
    if i ≤ ks.length then
      -- `i++; break;` after this child, or the next round
      let rest :=
        if i < ks.length ∧ kvldskeyCmp rangeEnd (ks.getD i empty) < 0 then ([], i + 1)
        else gotnodeLoop rangeEnd ks cs n (i + 1)
      (cs[i]?.toList ++ rest.1, rest.2)
    else ([], i)

/-- `callback_range_gotnode(C, N, end)`: start the cookie for the node `N` found by
`btree_find_range` with end `e`, and choose the leaves to read.  At height one the number of
leaves is the budget in pages, at least one; when the loop stops before the last child the end
becomes the separator after the last child read.  `none` for a node of another height, which
`btree_find_range` does not return. -/
def callbackRangeGotnode (pagelen : ℕ) (R : RangeRequest) (N : Node) (e : KVLDSKey) :
    Option (RangeCookie × List Node) :=
  let C : RangeCookie :=
    { endKey := e, mlen := N.info.mlenT, nkeys := 0, rlen := 0, leavesleft := 0, heap := [] }
  if N.info.height = 0 then some ({ C with leavesleft := 1 }, [N])
  else if N.info.height = 1 then
    let ks := N.parentKeys
    let start := btreeFindChild N R.rangeStart
    let stop := if start + R.rangeMax / pagelen = start then start + 1
      else start + R.rangeMax / pagelen
    let r := gotnodeLoop R.rangeEnd ks N.children (stop - start) start
    let e' := if r.2 < ks.length + 1 then ks.getD (r.2 - 1) empty else e
    some ({ C with endKey := e', leavesleft := r.1.length }, r.1)
  else none

/-- The pair loop of `callback_range_gotleaf`: skip keys below the start and, if the end is not
empty, keys above the end; count every other pair against the budget and add it to the heap,
unless the budget is exceeded and the heap is not empty, in which case the loop stops and the
end becomes this key. -/
def gotleafLoop (R : RangeRequest) : List (KVLDSKey × KVLDSKey) → RangeCookie → RangeCookie
  | [], C => C
  | p :: ps, C =>
    if kvldskeyCmp p.1 R.rangeStart < 0 then gotleafLoop R ps C
    else if 0 < R.rangeEnd.len ∧ 0 < kvldskeyCmp p.1 R.rangeEnd then gotleafLoop R ps C
    else
      let rlen := C.rlen + p.1.serialSize + p.2.serialSize
      if 0 < C.nkeys ∧ R.rangeMax < rlen then { C with rlen := rlen, endKey := p.1 }
      else gotleafLoop R ps { C with rlen := rlen, nkeys := C.nkeys + 1, heap := C.heap ++ [p] }

/-- `callback_range_gotleaf(C, N)` up to the test for the last leaf. -/
def callbackRangeGotleaf (R : RangeRequest) (L : Node) (C : RangeCookie) : RangeCookie :=
  let C' := gotleafLoop R L.leafPairs C
  { C' with leavesleft := C'.leavesleft - 1 }

/-- `rangedone(C)`: the next key is the end of the leaves read, or the end of the request if
that comes first (an empty key being the end of the key space); the pairs come out of the heap
in `kvpair_cmp` order. -/
def rangedone (R : RangeRequest) (C : RangeCookie) : RangeResponse where
  nkeys := C.nkeys
  next :=
    if C.endKey.len = 0 then R.rangeEnd
    else if R.rangeEnd.len = 0 then C.endKey
    else if kvldskeyCmp C.endKey R.rangeEnd < 0 then C.endKey
    else R.rangeEnd
  pairs := C.heap.insertionSort fun x y => kvldskeyCmp2 x.1 y.1 C.mlen ≤ 0

/-- The leaves complete one after another; the one that brings `leavesleft` to zero sends the
response.  `none` if the leaves run out first. -/
def rangeLeaves (R : RangeRequest) : List Node → RangeCookie → Option RangeResponse
  | [], _ => none
  | L :: Ls, C =>
    let C' := callbackRangeGotleaf R L C
    if C'.leavesleft = 0 then some (rangedone R C') else rangeLeaves R Ls C'

/-- A RANGE request on the committed root `root` with pages of `pagelen` bytes, the leaves
completing in the order `order` puts the leaves descended into. -/
def dispatchRange (pagelen : ℕ) (root : Node) (R : RangeRequest)
    (order : List Node → List Node) : Option RangeResponse := do
  let found ← btreeFindRange root R.rangeStart 1
  let started ← callbackRangeGotnode pagelen R found.1 found.2
  rangeLeaves R (order started.2) started.1

end Kivaloo.Kvlds
