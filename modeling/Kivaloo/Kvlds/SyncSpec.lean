import Kivaloo.Kvlds.Sync
import Kivaloo.Kvlds.Invariant

/-!
# What `btree_sync` writes

`serializetree` visits the dirty nodes of the tree in depth-first postorder, the dirty nodes
forming the top of the tree: below a node that is not dirty it does not look.  It hands them
the block numbers `nextblk`, `nextblk + 1`, ... in that order and serializes them in that order
(`serializetree_spec`): the `i`-th page of the APPEND is the page of the `i`-th dirty node in
postorder, which carries the number `nextblk + i`.  A parent comes after its children, so it
refers only to smaller block numbers (`numbered_before`), and the root is written last.  The
oldest leaf of a dirty node is the least of its own number and its children's oldest leaves,
which is the least leaf number below it as soon as the children's oldest leaves are right
(`oldestOK_of_oldestLoop`).  Apart from the numbers, oldest leaves and cached sizes of the dirty
nodes, the tree is unchanged; `makeclean` then changes only the states of the dirty nodes.
-/

namespace Kivaloo.Kvlds

open Node

/-! ## The nodes of a subtree -/

mutual

/-- The nodes of a subtree, each before its children. -/
def subtrees : Node → List Node
  | .leaf m ps => [.leaf m ps]
  | .parent m ks cs => .parent m ks cs :: subtreesList cs

/-- The nodes of a list of subtrees. -/
def subtreesList : List Node → List Node
  | [] => []
  | c :: cs => subtrees c ++ subtreesList cs

end

theorem subtreesList_eq (cs : List Node) : subtreesList cs = (cs.map subtrees).flatten := by
  induction cs with
  | nil => simp [subtreesList]
  | cons c cs ih => simp [subtreesList, ih]

@[simp] theorem subtrees_leaf (m ps) : subtrees (.leaf m ps) = [.leaf m ps] := by
  simp [subtrees]

@[simp] theorem subtrees_parent (m ks cs) :
    subtrees (.parent m ks cs) = .parent m ks cs :: (cs.map subtrees).flatten := by
  simp [subtrees, subtreesList_eq]

theorem mem_subtrees_self (N : Node) : N ∈ subtrees N := by
  cases N <;> simp

theorem every_iff_subtrees {P : Node → Prop} {N : Node} : Every P N ↔ ∀ X ∈ subtrees N, P X := by
  induction N using Node.ind with
  | leaf m ps => simp
  | parent m ks cs ih =>
    simp only [every_parent, subtrees_parent, List.mem_cons, List.mem_flatten, List.mem_map]
    constructor
    · rintro ⟨hN, hcs⟩ X (rfl | ⟨_, ⟨c, hc, rfl⟩, hX⟩)
      · exact hN
      · exact (ih c hc).mp (hcs c hc) X hX
    · intro h
      exact ⟨h _ (Or.inl rfl), fun c hc => (ih c hc).mpr fun X hX => h X (Or.inr ⟨_, ⟨c, hc, rfl⟩, hX⟩)⟩

/-- A node of a subtree has its own nodes in that subtree. -/
theorem subtrees_subset {N X : Node} (h : X ∈ subtrees N) : subtrees X ⊆ subtrees N := by
  induction N using Node.ind with
  | leaf m ps =>
    simp only [subtrees_leaf, List.mem_singleton] at h
    subst h
    exact List.Subset.refl _
  | parent m ks cs ih =>
    simp only [subtrees_parent, List.mem_cons, List.mem_flatten, List.mem_map] at h
    rcases h with rfl | ⟨_, ⟨c, hc, rfl⟩, hX⟩
    · exact List.Subset.refl _
    · intro Y hY
      simp only [subtrees_parent, List.mem_cons, List.mem_flatten, List.mem_map]
      exact Or.inr ⟨_, ⟨c, hc, rfl⟩, ih c hc hX hY⟩

/-! ## Changing the fields of every node -/

mutual

/-- The subtree with `f` applied to the fields of every node. -/
def Node.mapInfo (f : NodeInfo → NodeInfo) : Node → Node
  | .leaf m ps => .leaf (f m) ps
  | .parent m ks cs => .parent (f m) ks (mapInfoList f cs)

/-- `Node.mapInfo` over a list of subtrees. -/
def mapInfoList (f : NodeInfo → NodeInfo) : List Node → List Node
  | [] => []
  | c :: cs => c.mapInfo f :: mapInfoList f cs

end

theorem mapInfoList_eq (f : NodeInfo → NodeInfo) (cs : List Node) :
    mapInfoList f cs = cs.map (Node.mapInfo f) := by
  induction cs with
  | nil => simp [mapInfoList]
  | cons c cs ih => simp [mapInfoList, ih]

@[simp] theorem mapInfo_leaf (f : NodeInfo → NodeInfo) (m ps) :
    (Node.leaf m ps).mapInfo f = .leaf (f m) ps := by
  simp [Node.mapInfo]

@[simp] theorem mapInfo_parent (f : NodeInfo → NodeInfo) (m ks cs) :
    (Node.parent m ks cs).mapInfo f = .parent (f m) ks (cs.map (Node.mapInfo f)) := by
  simp [Node.mapInfo, mapInfoList_eq]

/-- Two trees that agree up to `f` have, position by position, children that agree up to
`f`. -/
theorem exists_mapInfo_eq_of_mem {f : NodeInfo → NodeInfo} {cs cs' : List Node}
    (h : cs'.map (Node.mapInfo f) = cs.map (Node.mapInfo f)) {c' : Node} (hc' : c' ∈ cs') :
    ∃ c ∈ cs, c'.mapInfo f = c.mapInfo f := by
  induction cs generalizing cs' with
  | nil =>
    rw [List.map_nil, List.map_eq_nil_iff] at h
    subst h
    simp at hc'
  | cons c cs ih =>
    cases cs' with
    | nil => simp at h
    | cons d cs' =>
      simp only [List.map_cons, List.cons.injEq] at h
      rcases List.mem_cons.mp hc' with rfl | hc'
      · exact ⟨c, List.mem_cons_self, h.1⟩
      · obtain ⟨e, he, hce⟩ := ih h.2 hc'
        exact ⟨e, List.mem_cons_of_mem _ he, hce⟩

/-- A property of nodes that does not see what `f` changes holds throughout a tree as soon as
it holds throughout a tree that agrees with it up to `f`. -/
theorem Every.of_mapInfo_eq {f : NodeInfo → NodeInfo} {P : Node → Prop}
    (hP : ∀ X Y, X.mapInfo f = Y.mapInfo f → P Y → P X) {N N' : Node}
    (h : N'.mapInfo f = N.mapInfo f) (hN : Every P N) : Every P N' := by
  induction N using Node.ind generalizing N' with
  | leaf m ps =>
    cases N' with
    | leaf m' ps' => exact every_leaf.mpr (hP _ _ h hN.self)
    | parent m' ks' cs' => simp at h
  | parent m ks cs ih =>
    cases N' with
    | leaf m' ps' => simp at h
    | parent m' ks' cs' =>
      simp only [mapInfo_parent, Node.parent.injEq] at h
      refine every_parent.mpr ⟨hP _ _ (by simp [h.1, h.2.1, h.2.2]) hN.self, fun c' hc' => ?_⟩
      obtain ⟨c, hc, hcc⟩ := exists_mapInfo_eq_of_mem h.2.2 hc'
      exact ih c hc hcc (hN.of_mem_children (by simpa [Node.children] using hc))

/-! ## Dirty nodes in postorder -/

mutual

/-- The dirty nodes under `N` in depth-first postorder, not looking below a node that is not
dirty: the order in which `serializetree` numbers them. -/
def dirtyPost : Node → List Node
  | .leaf m ps => if m.state = .dirty then [.leaf m ps] else []
  | .parent m ks cs => if m.state = .dirty then dirtyPostList cs ++ [.parent m ks cs] else []

/-- `dirtyPost` over a list of subtrees. -/
def dirtyPostList : List Node → List Node
  | [] => []
  | c :: cs => dirtyPost c ++ dirtyPostList cs

end

theorem dirtyPostList_eq (cs : List Node) : dirtyPostList cs = (cs.map dirtyPost).flatten := by
  induction cs with
  | nil => simp [dirtyPostList]
  | cons c cs ih => simp [dirtyPostList, ih]

theorem dirtyPost_of_dirty {N : Node} (h : N.info.state = .dirty) :
    dirtyPost N = dirtyPostList N.children ++ [N] := by
  cases N with
  | leaf m ps => simp_all [dirtyPost, dirtyPostList, Node.children]
  | parent m ks cs => simp_all [dirtyPost, Node.children]

theorem dirtyPost_of_not_dirty {N : Node} (h : N.info.state ≠ .dirty) : dirtyPost N = [] := by
  cases N <;> simp_all [dirtyPost]

/-! ## `serializetree` -/

/-- The fields of a node without the page number, oldest leaf and cached size that
`serializetree` sets. -/
def NodeInfo.unnumbered (m : NodeInfo) : NodeInfo :=
  { m with pagenum := 0, oldestleaf := 0, pagesize := none }

/-- The oldest leaf of a node is computed from its own number and its children's oldest
leaves, as `serializetree` computes it. -/
def OldestComputed (X : Node) : Prop :=
  X.info.oldestleaf = oldestLoop X.info.pagenum (X.children.map fun c => c.info.oldestleaf)

/-- The nodes of `l` carry the block numbers `b`, `b + 1`, ... in order. -/
def NumberedFrom (b : ℕ) (l : List Node) : Prop :=
  l.map (fun X => X.info.pagenum) = (List.range' b l.length).map UInt64.ofNat

theorem numberedFrom_nil (b : ℕ) : NumberedFrom b [] := rfl

theorem numberedFrom_singleton {b : ℕ} {X : Node} :
    NumberedFrom b [X] ↔ X.info.pagenum = UInt64.ofNat b := by
  simp [NumberedFrom]

theorem numberedFrom_append {b : ℕ} {l₁ l₂ : List Node} :
    NumberedFrom b (l₁ ++ l₂) ↔ NumberedFrom b l₁ ∧ NumberedFrom (b + l₁.length) l₂ := by
  simp only [NumberedFrom, List.map_append, List.length_append, ← List.range'_append_1]
  constructor
  · intro h
    exact List.append_inj h (by simp)
  · rintro ⟨h₁, h₂⟩
    rw [h₁, h₂]

/-- What `serializetree` leaves of the subtree `N` and the page vector `bufv`: the tree unchanged
up to the fields it sets; the pages of the dirty nodes appended to `bufv` in postorder; the dirty
nodes numbered in postorder from `base + bufv.length`; their oldest leaves computed; and its
other nodes taken over from `N`. -/
structure Serialized (base : ℕ) (N : Node) (bufv : List Page) (N' : Node) (bufv' : List Page) :
    Prop where
  unnumbered : N'.mapInfo NodeInfo.unnumbered = N.mapInfo NodeInfo.unnumbered
  pages : bufv' = bufv ++ (dirtyPost N').map Node.page
  numbered : NumberedFrom (base + bufv.length) (dirtyPost N')
  oldest : ∀ X ∈ dirtyPost N', OldestComputed X
  clean : Every (fun X => X.info.state ≠ .dirty → X ∈ subtrees N) N'

/-- `Serialized` over a list of children. -/
structure SerializedList (base : ℕ) (cs : List Node) (bufv : List Page) (cs' : List Node)
    (bufv' : List Page) : Prop where
  unnumbered : cs'.map (Node.mapInfo NodeInfo.unnumbered) = cs.map (Node.mapInfo NodeInfo.unnumbered)
  pages : bufv' = bufv ++ (dirtyPostList cs').map Node.page
  numbered : NumberedFrom (base + bufv.length) (dirtyPostList cs')
  oldest : ∀ X ∈ dirtyPostList cs', OldestComputed X
  clean : ∀ c ∈ cs', Every (fun X => X.info.state ≠ .dirty → X ∈ subtreesList cs) c

@[simp] theorem unnumbered_cacheSize_info (N : Node) :
    (N.cacheSize.info).unnumbered = N.info.unnumbered := by
  simp [Node.cacheSize, NodeInfo.unnumbered]

@[simp] theorem page_cacheSize (N : Node) : N.cacheSize.page = N.page := by
  cases N <;> rfl

theorem serialize_eq_some {N : Node} {buflen : ℕ} {pg : Page} (h : serialize N buflen = some pg) :
    pg = N.page := by
  unfold serialize at h
  split_ifs at h
  exact (Option.some.inj h).symm

/-- A dirty node numbered `base + k` after `k` pages. -/
theorem numbered_last {base : ℕ} {bufv : List Page} :
    UInt64.ofNat base + UInt64.ofNat bufv.length = UInt64.ofNat (base + bufv.length) :=
  (UInt64.ofNat_add _ _).symm

section Serialized

variable {base : ℕ}

/-- A node that is not dirty is left as it is. -/
theorem serialized_of_not_dirty {N : Node} (h : N.info.state ≠ .dirty) (bufv : List Page) :
    Serialized base N bufv N bufv where
  unnumbered := rfl
  pages := by simp [dirtyPost_of_not_dirty h]
  numbered := by simpa [dirtyPost_of_not_dirty h] using numberedFrom_nil _
  oldest := by simp [dirtyPost_of_not_dirty h]
  clean := every_iff_subtrees.mpr fun X hX _ => hX

/-- A dirty leaf gets the next number, which is also its oldest leaf, and its page is added. -/
theorem serialized_dirtyLeaf {m : NodeInfo} {ps : List (KVLDSKey × KVLDSKey)} {bufv : List Page}
    {pagenum : UInt64} (hm : m.state = .dirty) (hp : pagenum = UInt64.ofNat (base + bufv.length)) :
    Serialized base (.leaf m ps) bufv
      (Node.leaf { m with pagenum := pagenum, oldestleaf := pagenum } ps).cacheSize
      (bufv ++ [(Node.leaf { m with pagenum := pagenum, oldestleaf := pagenum } ps).page]) := by
  have hpost : dirtyPost (Node.leaf { m with pagenum := pagenum, oldestleaf := pagenum } ps).cacheSize =
      [(Node.leaf { m with pagenum := pagenum, oldestleaf := pagenum } ps).cacheSize] := by
    simp [Node.cacheSize, dirtyPost, hm]
  refine ⟨by simp [Node.cacheSize, NodeInfo.unnumbered], by rw [hpost]; simp, ?_, ?_, ?_⟩
  · rw [hpost, numberedFrom_singleton]
    simp [Node.cacheSize, hp]
  · rw [hpost]
    simp [OldestComputed, Node.cacheSize, Node.children, oldestLoop]
  · refine every_iff_subtrees.mpr fun X hX hX' => ?_
    simp only [Node.cacheSize, info_leaf, setInfo_leaf, subtrees_leaf, List.mem_singleton] at hX
    subst hX
    exact absurd hm hX'

@[simp] theorem children_cacheSize (N : Node) : N.cacheSize.children = N.children := by
  simp [Node.cacheSize]

/-- A dirty parent is numbered after the pages of its children, and its oldest leaf is computed
from theirs. -/
theorem serialized_dirtyParent {m : NodeInfo} {ks : List KVLDSKey} {cs cs' : List Node}
    {bufv bufv' : List Page} {pagenum : UInt64} (hm : m.state = .dirty)
    (hcs : SerializedList base cs bufv cs' bufv') (hp : pagenum = UInt64.ofNat (base + bufv'.length)) :
    Serialized base (.parent m ks cs) bufv
      (Node.parent { m with pagenum := pagenum,
                            oldestleaf := oldestLoop pagenum (cs'.map fun c => c.info.oldestleaf) }
        ks cs').cacheSize
      (bufv' ++ [(Node.parent { m with pagenum := pagenum,
                                       oldestleaf := oldestLoop pagenum (cs'.map fun c => c.info.oldestleaf) }
        ks cs').page]) := by
  set N := Node.parent { m with pagenum := pagenum,
                                oldestleaf := oldestLoop pagenum (cs'.map fun c => c.info.oldestleaf) }
    ks cs' with hN
  have hd : N.cacheSize.info.state = .dirty := by simp [N, hm]
  have hpost : dirtyPost N.cacheSize = dirtyPostList cs' ++ [N.cacheSize] := by
    rw [dirtyPost_of_dirty hd, children_cacheSize, hN, Node.children]
  have hlen : bufv'.length = bufv.length + (dirtyPostList cs').length := by
    simp [hcs.pages]
  refine ⟨?_, by simp [hpost, hcs.pages], ?_, ?_, ?_⟩
  · simp [N, Node.cacheSize, NodeInfo.unnumbered, hcs.unnumbered]
  · rw [hpost, numberedFrom_append, numberedFrom_singleton]
    refine ⟨hcs.numbered, ?_⟩
    simp [N, Node.cacheSize, hp, hlen, Nat.add_assoc]
  · intro X hX
    rw [hpost, List.mem_append, List.mem_singleton] at hX
    rcases hX with hX | rfl
    · exact hcs.oldest X hX
    · simp [OldestComputed, N, Node.cacheSize, Node.children]
  · refine every_parent.mpr ⟨fun h => absurd hm (by simpa [N] using h), fun c hc => ?_⟩
    refine every_iff_subtrees.mpr fun X hX hclean => ?_
    have hX' := every_iff_subtrees.mp (hcs.clean c hc) X hX hclean
    simpa [subtreesList_eq] using Or.inr hX'

theorem serializedList_nil (bufv : List Page) : SerializedList base [] bufv [] bufv where
  unnumbered := rfl
  pages := by simp [dirtyPostList]
  numbered := numberedFrom_nil _
  oldest := by simp [dirtyPostList]
  clean := by simp

theorem serializedList_cons {c c' : Node} {cs cs' : List Node} {bufv bufv₁ bufv' : List Page}
    (hc : Serialized base c bufv c' bufv₁) (hcs : SerializedList base cs bufv₁ cs' bufv') :
    SerializedList base (c :: cs) bufv (c' :: cs') bufv' := by
  have hlen : bufv₁.length = bufv.length + (dirtyPost c').length := by simp [hc.pages]
  refine ⟨by simp [hc.unnumbered, hcs.unnumbered], by simp [dirtyPostList, hcs.pages, hc.pages],
    ?_, ?_, ?_⟩
  · rw [dirtyPostList, numberedFrom_append]
    refine ⟨hc.numbered, ?_⟩
    have := hcs.numbered
    rwa [hlen, ← Nat.add_assoc] at this
  · intro X hX
    rw [dirtyPostList, List.mem_append] at hX
    exact hX.elim (hc.oldest X) (hcs.oldest X)
  · intro d hd
    refine every_iff_subtrees.mpr fun X hX hclean => ?_
    rcases List.mem_cons.mp hd with rfl | hd
    · have := every_iff_subtrees.mp hc.clean X hX hclean
      simp [subtreesList, this]
    · have := every_iff_subtrees.mp (hcs.clean d hd) X hX hclean
      simp [subtreesList, this]

end Serialized

/-- `serializetree` numbers and writes the dirty nodes in postorder from `base + bufv.length`,
and computes their oldest leaves. -/
theorem serializetree_spec (pagelen base : ℕ) :
    (∀ N bufv N' bufv', serializetree pagelen (UInt64.ofNat base) N bufv = some (N', bufv') →
      Serialized base N bufv N' bufv') ∧
    (∀ cs bufv cs' bufv', serializetreeList pagelen (UInt64.ofNat base) cs bufv = some (cs', bufv') →
      SerializedList base cs bufv cs' bufv') := by
  refine serializetree.mutual_induct pagelen (UInt64.ofNat base)
    (fun N bufv => ∀ N' bufv', serializetree pagelen (UInt64.ofNat base) N bufv = some (N', bufv') →
      Serialized base N bufv N' bufv')
    (fun cs bufv => ∀ cs' bufv', serializetreeList pagelen (UInt64.ofNat base) cs bufv = some (cs', bufv') →
      SerializedList base cs bufv cs' bufv') ?_ ?_ ?_ ?_ ?_ ?_ ?_ ?_
  · -- a dirty leaf
    intro m ps bufv hm N' bufv' h
    simp only [serializetree, if_pos hm, Option.map_eq_some_iff, Prod.mk.injEq] at h
    obtain ⟨pg, hpg, rfl, rfl⟩ := h
    rw [serialize_eq_some hpg]
    exact serialized_dirtyLeaf hm numbered_last
  · -- a leaf that is not dirty
    intro m ps bufv hm N' bufv' h
    simp only [serializetree, if_neg hm, Option.some.injEq, Prod.mk.injEq] at h
    obtain ⟨rfl, rfl⟩ := h
    exact serialized_of_not_dirty (N := .leaf m ps) hm bufv
  · -- a dirty parent whose children fail
    intro m ks cs bufv hm hnone _ N' bufv' h
    simp [serializetree, hm, hnone] at h
  · -- a dirty parent
    intro m ks cs bufv hm r hr ih N' bufv' h
    simp only [serializetree, if_pos hm, hr, Option.map_eq_some_iff, Prod.mk.injEq] at h
    obtain ⟨pg, hpg, rfl, rfl⟩ := h
    rw [serialize_eq_some hpg]
    exact serialized_dirtyParent hm (ih r.1 r.2 hr) numbered_last
  · -- a parent that is not dirty
    intro m ks cs bufv hm N' bufv' h
    simp only [serializetree, if_neg hm, Option.some.injEq, Prod.mk.injEq] at h
    obtain ⟨rfl, rfl⟩ := h
    exact serialized_of_not_dirty (N := .parent m ks cs) hm bufv
  · intro bufv cs' bufv' h
    simp only [serializetreeList, Option.some.injEq, Prod.mk.injEq] at h
    obtain ⟨rfl, rfl⟩ := h
    exact serializedList_nil bufv
  · intro c cs bufv hnone _ cs' bufv' h
    simp [serializetreeList, hnone] at h
  · intro c cs bufv r hr ihc ihcs cs' bufv' h
    simp only [serializetreeList, hr, Option.map_eq_some_iff, Prod.mk.injEq] at h
    obtain ⟨r', hr', rfl, rfl⟩ := h
    exact serializedList_cons (ihc r.1 r.2 hr) (ihcs r'.1 r'.2 hr')

/-! ## Numbers in postorder -/

/-- Without wrapping around, the node at position `i` carries the number `b + i`. -/
theorem NumberedFrom.toNat_getElem {b : ℕ} {l : List Node} (h : NumberedFrom b l)
    (hfit : b + l.length ≤ 2 ^ 64) {i : ℕ} (hi : i < l.length) :
    l[i].info.pagenum.toNat = b + i := by
  have hi' := congrArg (fun l => l[i]?) h
  simp only [List.getElem?_map, List.getElem?_range', hi, List.getElem?_eq_getElem,
    Option.map_some, Option.some.injEq, one_mul] at hi'
  have hsize : UInt64.size = 2 ^ 64 := rfl
  rw [hi', UInt64.toNat_ofNat_of_lt' (by omega)]

/-- Without wrapping around, the nodes of `l` carry numbers from `b` below `b + l.length`. -/
theorem NumberedFrom.toNat_mem {b : ℕ} {l : List Node} (h : NumberedFrom b l)
    (hfit : b + l.length ≤ 2 ^ 64) {X : Node} (hX : X ∈ l) :
    b ≤ X.info.pagenum.toNat ∧ X.info.pagenum.toNat < b + l.length := by
  obtain ⟨i, hi, rfl⟩ := List.mem_iff_getElem.mp hX
  rw [h.toNat_getElem hfit hi]
  omega

/-- The dirty nodes of one child form a segment of the dirty nodes of all the children. -/
theorem numberedFrom_child {b : ℕ} {cs : List Node} (h : NumberedFrom b (dirtyPostList cs))
    {c : Node} (hc : c ∈ cs) :
    ∃ o, NumberedFrom (b + o) (dirtyPost c) ∧ o + (dirtyPost c).length ≤ (dirtyPostList cs).length := by
  obtain ⟨l₁, l₂, rfl⟩ := List.append_of_mem hc
  have hsplit : dirtyPostList (l₁ ++ c :: l₂) = dirtyPostList l₁ ++ (dirtyPost c ++ dirtyPostList l₂) := by
    simp [dirtyPostList_eq]
  rw [hsplit] at h ⊢
  obtain ⟨-, h⟩ := numberedFrom_append.mp h
  exact ⟨_, (numberedFrom_append.mp h).1, by simp⟩

/-- Numbered in postorder without wrapping around, a dirty node comes after its dirty
children. -/
theorem numbered_before {N : Node} {b : ℕ} (hnum : NumberedFrom b (dirtyPost N))
    (hfit : b + (dirtyPost N).length ≤ 2 ^ 64) :
    ∀ X ∈ dirtyPost N, ∀ c ∈ X.children, c.info.state = .dirty →
      c.info.pagenum.toNat < X.info.pagenum.toNat := by
  induction N using Node.ind generalizing b with
  | leaf m ps =>
    intro X hX c hc
    by_cases hm : m.state = .dirty <;> simp_all [dirtyPost, Node.children]
  | parent m ks cs ih =>
    by_cases hm : m.state = .dirty
    swap
    · simp [dirtyPost, hm]
    have hpost : dirtyPost (.parent m ks cs) = dirtyPostList cs ++ [.parent m ks cs] := by
      simp [dirtyPost, hm]
    rw [hpost] at hnum hfit ⊢
    obtain ⟨hcs, hself⟩ := numberedFrom_append.mp hnum
    have hlen : (dirtyPostList cs ++ [Node.parent m ks cs]).length = (dirtyPostList cs).length + 1 := by
      simp
    intro X hX c hc hcd
    rcases List.mem_append.mp hX with hX | hX
    · -- `X` is a dirty node below some child
      rw [dirtyPostList_eq, List.mem_flatten] at hX
      obtain ⟨_, hl, hX⟩ := hX
      obtain ⟨d, hd, rfl⟩ := List.mem_map.mp hl
      obtain ⟨o, hnd, hle⟩ := numberedFrom_child hcs hd
      exact ih d hd hnd (by omega) X hX c hc hcd
    · -- `X` is the parent: a dirty child is the last of its segment, before the parent
      rw [List.mem_singleton] at hX
      subst hX
      have hc' : c ∈ cs := by simpa [Node.children] using hc
      obtain ⟨o, hnc, hle⟩ := numberedFrom_child hcs hc'
      rw [dirtyPost_of_dirty hcd] at hnc hle
      obtain ⟨-, hnc⟩ := numberedFrom_append.mp hnc
      rw [hlen] at hfit
      have hle' : o + (dirtyPostList c.children).length + 1 ≤ (dirtyPostList cs).length := by
        simp at hle
        omega
      have hcnum : c.info.pagenum.toNat = b + o + (dirtyPostList c.children).length := by
        simpa using hnc.toNat_getElem (i := 0) (by simp; omega) (by simp)
      have hpnum : (Node.parent m ks cs).info.pagenum.toNat = b + (dirtyPostList cs).length := by
        simpa using hself.toNat_getElem (i := 0) (by simp; omega) (by simp)
      omega

/-! ## Oldest leaves -/

/-- The minimum loop returns its start or one of the values, and lies at or below all of
them. -/
theorem oldestLoop_spec (init : UInt64) (xs : List UInt64) :
    (oldestLoop init xs = init ∨ oldestLoop init xs ∈ xs) ∧
      (oldestLoop init xs).toNat ≤ init.toNat ∧ ∀ x ∈ xs, (oldestLoop init xs).toNat ≤ x.toNat := by
  induction xs generalizing init with
  | nil => simp [oldestLoop]
  | cons x xs ih =>
    have hstep : oldestLoop init (x :: xs) = oldestLoop (if x < init then x else init) xs := by
      simp [oldestLoop]
    rw [hstep]
    by_cases hx : x < init
    · -- the loop goes on from `x`
      rw [if_pos hx]
      obtain ⟨hmem, hle, hall⟩ := ih x
      have hx' := UInt64.lt_iff_toNat_lt.mp hx
      refine ⟨?_, by omega, ?_⟩
      · rcases hmem with h | h
        · rw [h]
          exact Or.inr List.mem_cons_self
        · exact Or.inr (List.mem_cons_of_mem _ h)
      · intro y hy
        rcases List.mem_cons.mp hy with rfl | hy
        · exact hle
        · exact hall y hy
    · -- the loop goes on from `init`
      rw [if_neg hx]
      obtain ⟨hmem, hle, hall⟩ := ih init
      have hx' : init.toNat ≤ x.toNat := by
        rw [UInt64.lt_iff_toNat_lt] at hx
        omega
      refine ⟨hmem.imp id (List.mem_cons_of_mem _), hle, ?_⟩
      intro y hy
      rcases List.mem_cons.mp hy with rfl | hy
      · omega
      · exact hall y hy

mutual

/-- The page numbers of the leaves of a subtree, in order. -/
def leafPagenums : Node → List ℕ
  | .leaf m _ => [m.pagenum.toNat]
  | .parent _ _ cs => leafPagenumsList cs

/-- `leafPagenums` over a list of subtrees. -/
def leafPagenumsList : List Node → List ℕ
  | [] => []
  | c :: cs => leafPagenums c ++ leafPagenumsList cs

end

@[simp] theorem leafPagenums_leaf (m ps) : leafPagenums (.leaf m ps) = [m.pagenum.toNat] := by
  simp [leafPagenums]

@[simp] theorem leafPagenums_parent (m ks cs) :
    leafPagenums (.parent m ks cs) = (cs.map leafPagenums).flatten := by
  have : ∀ cs : List Node, leafPagenumsList cs = (cs.map leafPagenums).flatten := by
    intro cs
    induction cs with
    | nil => simp [leafPagenumsList]
    | cons c cs ih => simp [leafPagenumsList, ih]
  simp [leafPagenums, this]

/-- The oldest leaf of a node is the least page number of a leaf below it. -/
def OldestOK (X : Node) : Prop :=
  X.info.oldestleaf.toNat ∈ leafPagenums X ∧ ∀ p ∈ leafPagenums X, X.info.oldestleaf.toNat ≤ p

/-- The children of a node have smaller page numbers than the node. -/
def ChildrenBefore (X : Node) : Prop :=
  ∀ c ∈ X.children, c.info.pagenum.toNat < X.info.pagenum.toNat

/-- The oldest leaf computed from a node's own number and its children's oldest leaves is right
when the children's are, when they lie below the node's number, and when a parent has a
child. -/
theorem oldestOK_of_oldestComputed {X : Node} (hX : OldestComputed X)
    (hne : X.isLeaf = false → X.children ≠ [])
    (hcs : ∀ c ∈ X.children, OldestOK c ∧ c.info.oldestleaf.toNat < X.info.pagenum.toNat) :
    OldestOK X := by
  cases X with
  | leaf m ps =>
    simp [OldestComputed, Node.children, oldestLoop] at hX
    simp [OldestOK, hX]
  | parent m ks cs =>
    simp only [OldestComputed, Node.children, info_parent] at hX hcs
    obtain ⟨hmem, -, hall⟩ := oldestLoop_spec m.pagenum (cs.map fun c => c.info.oldestleaf)
    obtain ⟨c₀, hc₀⟩ := List.exists_mem_of_ne_nil cs (by simpa [Node.children, isLeaf] using hne)
    -- the loop cannot have kept the parent's own number: a child's oldest leaf is smaller
    have hin : m.oldestleaf ∈ cs.map fun c => c.info.oldestleaf := by
      rcases hmem with h | h
      · have h₁ := hall _ (List.mem_map_of_mem hc₀)
        have h₂ := (hcs c₀ hc₀).2
        rw [h] at h₁
        omega
      · rwa [← hX] at h
    obtain ⟨c, hc, hceq⟩ := List.mem_map.mp hin
    refine ⟨?_, fun p hp => ?_⟩
    · rw [leafPagenums_parent, List.mem_flatten]
      exact ⟨_, List.mem_map_of_mem hc, hceq ▸ (hcs c hc).1.1⟩
    · rw [leafPagenums_parent, List.mem_flatten] at hp
      obtain ⟨_, hl, hp⟩ := hp
      obtain ⟨d, hd, rfl⟩ := List.mem_map.mp hl
      have h₁ := hall _ (List.mem_map_of_mem hd)
      rw [← hX] at h₁
      exact h₁.trans ((hcs d hd).1.2 p hp)

/-- Below nodes that come after their children, every leaf number is at most the node's. -/
theorem leafPagenums_le {X : Node} (h : Every ChildrenBefore X) :
    ∀ p ∈ leafPagenums X, p ≤ X.info.pagenum.toNat := by
  induction X using Node.ind with
  | leaf m ps => simp
  | parent m ks cs ih =>
    intro p hp
    rw [leafPagenums_parent, List.mem_flatten] at hp
    obtain ⟨_, hl, hp⟩ := hp
    obtain ⟨c, hc, rfl⟩ := List.mem_map.mp hl
    have hbefore := h.self c (by simpa [Node.children] using hc)
    have := ih c hc (h.of_mem_children (by simpa [Node.children] using hc)) p hp
    simp only [info_parent] at hbefore ⊢
    omega

theorem leafPagenums_subset {X Y : Node} (h : Y ∈ subtrees X) : leafPagenums Y ⊆ leafPagenums X := by
  induction X using Node.ind with
  | leaf m ps =>
    simp only [subtrees_leaf, List.mem_singleton] at h
    subst h
    exact List.Subset.refl _
  | parent m ks cs ih =>
    simp only [subtrees_parent, List.mem_cons, List.mem_flatten, List.mem_map] at h
    rcases h with rfl | ⟨_, ⟨c, hc, rfl⟩, hY⟩
    · exact List.Subset.refl _
    · intro p hp
      rw [leafPagenums_parent, List.mem_flatten]
      exact ⟨_, List.mem_map_of_mem hc, ih c hc hY hp⟩

/-- In a tree whose oldest leaves are right and whose nodes come after their children, every
node's number is at least the root's oldest leaf. -/
theorem oldestleaf_le_of_mem {R Y : Node} (h : Every (fun X => OldestOK X ∧ ChildrenBefore X) R)
    (hY : Y ∈ subtrees R) : R.info.oldestleaf.toNat ≤ Y.info.pagenum.toNat := by
  -- `Y` has a leaf below it, numbered at most `Y`'s number and at least the root's oldest leaf
  have hYall : Every ChildrenBefore Y :=
    every_iff_subtrees.mpr fun Z hZ => (every_iff_subtrees.mp h Z (subtrees_subset hY hZ)).2
  have hleaf := (every_iff_subtrees.mp h Y hY).1.1
  have h₁ := leafPagenums_le hYall _ hleaf
  have h₂ := h.self.1.2 _ (leafPagenums_subset hY hleaf)
  omega

/-! ## `makeclean` -/

/-- The fields of a node other than its state and oldest leaf not being cleaned, which
`makeclean` sets. -/
def NodeInfo.cleaned (m : NodeInfo) : NodeInfo := { m with state := .clean, oldestncleaf := 0 }

/-- On a tree whose nodes that are not dirty are clean all the way down, `makeclean` succeeds,
leaves everything but states and the oldest leaves not being cleaned as it was, and leaves
every node clean. -/
theorem makeclean_spec {N : Node}
    (hclean : Every (fun X => X.info.state ≠ .dirty → Every (fun Y => Y.info.state = .clean) X) N) :
    ∃ N'', makeclean N = some N'' ∧ N''.mapInfo NodeInfo.cleaned = N.mapInfo NodeInfo.cleaned ∧
      Every (fun X => X.info.state = .clean) N'' := by
  induction N using Node.ind with
  | leaf m ps =>
    have hself := hclean.self
    by_cases hd : m.state = .dirty
    · refine ⟨.leaf { m with oldestncleaf := m.pagenum, state := .clean } ps, by simp [makeclean, hd],
        by simp [NodeInfo.cleaned], by simp⟩
    · have hc : m.state = .clean := by simpa using hself hd
      exact ⟨_, by simp [makeclean, hc], rfl, by simpa using hc⟩
  | parent m ks cs ih =>
    have hself := hclean.self
    by_cases hd : m.state = .dirty
    · -- the children first
      have hlist : ∃ cs'', makecleanList cs = some cs'' ∧
          cs''.map (Node.mapInfo NodeInfo.cleaned) = cs.map (Node.mapInfo NodeInfo.cleaned) ∧
          ∀ c ∈ cs'', Every (fun X => X.info.state = .clean) c := by
        have hcs : ∀ c ∈ cs, ∃ c'', makeclean c = some c'' ∧
            c''.mapInfo NodeInfo.cleaned = c.mapInfo NodeInfo.cleaned ∧
            Every (fun X => X.info.state = .clean) c'' :=
          fun c hc => ih c hc (hclean.of_mem_children (by simpa [Node.children] using hc))
        clear ih hclean hself
        induction cs with
        | nil => exact ⟨[], rfl, rfl, by simp⟩
        | cons c cs ihcs =>
          obtain ⟨c'', hc'', hceq, hcc⟩ := hcs c List.mem_cons_self
          obtain ⟨cs'', hcs'', hcseq, hcsc⟩ := ihcs fun d hd => hcs d (List.mem_cons_of_mem _ hd)
          refine ⟨c'' :: cs'', by simp [makecleanList, hc'', hcs''], by simp [hceq, hcseq], ?_⟩
          intro d hd
          rcases List.mem_cons.mp hd with rfl | hd
          · exact hcc
          · exact hcsc d hd
      obtain ⟨cs'', hcs'', hcseq, hcsc⟩ := hlist
      refine ⟨.parent { m with
          oldestncleaf := oldestLoop m.pagenum (cs''.map fun c => c.info.oldestncleaf)
          state := .clean } ks cs'', by simp [makeclean, hd, hcs''], by simp [NodeInfo.cleaned, hcseq], ?_⟩
      exact every_parent.mpr ⟨by simp, hcsc⟩
    · have hc : Every (fun Y => Y.info.state = .clean) (.parent m ks cs) := hself hd
      have hm : m.state = .clean := by simpa using hc.self
      exact ⟨_, by simp [makeclean, hm], rfl, hc⟩

end Kivaloo.Kvlds
