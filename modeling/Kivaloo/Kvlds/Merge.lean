import Kivaloo.Kvlds.Node

/-!
# Merging nodes (kvlds/btree_node_merge.c)

`btree_node_merge` replaces adjacent siblings `c_in[0 .. nsep]` by one new dirty node.  Leaves
are concatenated and the separators between them dropped; parents are concatenated with the
separators between them pulled down into the merged node.
-/

namespace Kivaloo.Kvlds

open Node

namespace Node

/-- `N->u.pairs` of a leaf. -/
def leafPairs : Node → List (KVLDSKey × KVLDSKey)
  | leaf _ ps => ps
  | parent _ _ _ => []

/-- `N->u.keys` of a parent. -/
def parentKeys : Node → List KVLDSKey
  | leaf _ _ => []
  | parent _ ks _ => ks

/-- `N->v.children` of a parent. -/
def children : Node → List Node
  | leaf _ _ => []
  | parent _ _ cs => cs

@[simp] theorem leafPairs_setInfo (N : Node) (m : NodeInfo) :
    (N.setInfo m).leafPairs = N.leafPairs := by cases N <;> rfl
@[simp] theorem parentKeys_setInfo (N : Node) (m : NodeInfo) :
    (N.setInfo m).parentKeys = N.parentKeys := by cases N <;> rfl
@[simp] theorem children_setInfo (N : Node) (m : NodeInfo) :
    (N.setInfo m).children = N.children := by cases N <;> rfl

end Node

/-- `merge_leaf`: the pairs of the leaves `c_in[0 .. nsep]` in one new leaf. -/
def mergeLeaf (cin : List Node) : Node := mkleaf (cin.map Node.leafPairs).flatten

/-- The keys of a merged parent: the keys of each input parent, with the separator `k_in[i]`
between inputs `i` and `i + 1`. -/
def mergeParentKeys : List Node → List KVLDSKey → List KVLDSKey
  | [], _ => []
  | [c], _ => c.parentKeys
  | c :: cs, k :: ks => c.parentKeys ++ k :: mergeParentKeys cs ks
  | c :: _, [] => c.parentKeys

/-- `merge_parent`: one new parent of the height of `c_in[0]` holding the keys and children of
the parents `c_in[0 .. nsep]`. -/
def mergeParent (height : ℕ) (cin : List Node) (kin : List KVLDSKey) : Node :=
  mkparent height (mergeParentKeys cin kin) (cin.map Node.children).flatten

/-- `btree_node_merge(T, c_in, k_in, c_out, k_out, nsep)`: leaves and parents separately, by
the type of `c_in[0]`.  (The caller's tree shrinks by `nsep` nodes.) -/
def btreeNodeMerge : List Node → List KVLDSKey → Node
  | [], _ => mkleaf []
  | c :: cs, kin =>
    if c.isLeaf then mergeLeaf (c :: cs) else mergeParent c.info.height (c :: cs) kin

end Kivaloo.Kvlds
