import Kivaloo.Lib.BlockStore
import Kivaloo.Kvlds.SyncSpec

/-!
# The committed tree in the block store (kvlds/btree_sync.c, kvlds/btree.c)

kvlds keeps one committed tree, `root_shadow`, whose pages are in the block store.  A batch
builds a dirty tree from it; `btree_sync` appends the dirty nodes in postorder, and when the
APPEND completes the dirty tree, made clean, becomes the committed tree.  Every so often
`callback_gc` asks the store to free the blocks below the committed root's oldest leaf.  On
start-up `btree_init` scans back from the last block for a page with the root flag.

`Committed S R` is what holds of the committed tree `R` and the store `S` between these steps:
every node of `R` is clean, its page is stored at its number, its children come before it and
its oldest leaf is the least leaf number below it; `R` alone has the root flag, no page above
`R` has it, and `R` has the shape of a B+tree.  A sync (`Syncable.sync_committed`) and a FREE
(`Committed.frees`) keep it.  So does a crash during an APPEND followed by `btree_init` on the
store it leaves (`Committed.restart`): the scan finds the root of the last batch whose APPEND
wrote its last block (`Committed.crashed`), and the tree paged in from it is that tree up to the
fields pages do not record (`Loaded.mapInfo_eq`), with the root's oldest leaf recomputed from its
page as the one it had.  So the invariant holds in every reachable state (`Reachable.durable`).

A FREE issued while an APPEND is in flight names the committed root's oldest leaf, which lies
below every block the APPEND writes, so it commutes with the APPEND; the model takes the steps
one at a time.  A dirty tree is given by what the batch made of the committed tree (`Batch`):
the nodes it did not dirty are nodes of the committed tree.
-/

namespace Kivaloo.Kvlds

open Kivaloo.Lib Node

/-! ## Properties of every node -/

theorem Every.imp {P Q : Node → Prop} (hPQ : ∀ X, P X → Q X) {N : Node} (h : Every P N) :
    Every Q N :=
  every_iff_subtrees.mpr fun X hX => hPQ X (every_iff_subtrees.mp h X hX)

/-- A decidable property of every node, checked node by node. -/
theorem Every.of_decide {P : Node → Prop} [DecidablePred P] {N : Node}
    (h : Every (fun X => decide (P X) = true) N) : Every P N :=
  h.imp fun _ hX => of_decide_eq_true hX

theorem Every.and {P Q : Node → Prop} {N : Node} (hP : Every P N) (hQ : Every Q N) :
    Every (fun X => P X ∧ Q X) N :=
  every_iff_subtrees.mpr fun X hX => ⟨every_iff_subtrees.mp hP X hX, every_iff_subtrees.mp hQ X hX⟩

theorem mem_subtrees_of_mem_children {X c : Node} (hc : c ∈ X.children) : c ∈ subtrees X := by
  cases X with
  | leaf m ps => simp [Node.children] at hc
  | parent m ks cs =>
    simp only [subtrees_parent, List.mem_cons, List.mem_flatten, List.mem_map]
    exact Or.inr ⟨_, ⟨c, by simpa [Node.children] using hc, rfl⟩, mem_subtrees_self c⟩

theorem mem_subtrees_of_mem_dirtyPost {N X : Node} (h : X ∈ dirtyPost N) : X ∈ subtrees N := by
  induction N using Node.ind with
  | leaf m ps =>
    by_cases hm : m.state = .dirty <;> simp_all [dirtyPost]
  | parent m ks cs ih =>
    by_cases hm : m.state = .dirty
    swap
    · simp [dirtyPost, hm] at h
    rw [dirtyPost_of_dirty (N := .parent m ks cs) hm, List.mem_append, List.mem_singleton] at h
    rcases h with h | rfl
    · simp only [Node.children, dirtyPostList_eq, List.mem_flatten, List.mem_map] at h
      obtain ⟨_, ⟨c, hc, rfl⟩, hX⟩ := h
      exact subtrees_subset (mem_subtrees_of_mem_children (by simpa [Node.children] using hc))
        (ih c hc hX)
    · exact mem_subtrees_self _

/-- Where nothing is dirty below a node that is not dirty, every dirty node is one that
`serializetree` numbers. -/
theorem mem_dirtyPost_of_dirty {N X : Node}
    (h : Every (fun Y => Y.info.state ≠ .dirty → Every (fun Z => Z.info.state ≠ .dirty) Y) N)
    (hX : X ∈ subtrees N) (hd : X.info.state = .dirty) : X ∈ dirtyPost N := by
  induction N using Node.ind with
  | leaf m ps =>
    simp only [subtrees_leaf, List.mem_singleton] at hX
    subst hX
    simp_all [dirtyPost]
  | parent m ks cs ih =>
    by_cases hm : m.state = .dirty
    swap
    · exact absurd hd (every_iff_subtrees.mp (h.self hm) X hX)
    rw [dirtyPost_of_dirty (N := .parent m ks cs) hm]
    simp only [subtrees_parent, List.mem_cons, List.mem_flatten, List.mem_map] at hX
    rcases hX with rfl | ⟨_, ⟨c, hc, rfl⟩, hX⟩
    · simp
    · have hc' : c ∈ (Node.parent m ks cs).children := by simpa [Node.children] using hc
      have hXc := ih c hc (h.of_mem_children hc') hX
      simp only [Node.children, dirtyPostList_eq, List.mem_append, List.mem_flatten, List.mem_map]
      exact Or.inl ⟨_, ⟨c, hc, rfl⟩, hXc⟩

/-! ## The fields a page is made of -/

@[simp] theorem info_mapInfo (f : NodeInfo → NodeInfo) (N : Node) : (N.mapInfo f).info = f N.info := by
  cases N <;> simp

@[simp] theorem children_mapInfo (f : NodeInfo → NodeInfo) (N : Node) :
    (N.mapInfo f).children = N.children.map (Node.mapInfo f) := by
  cases N <;> simp [Node.children]

@[simp] theorem page_root (N : Node) : N.page.root = N.info.root := by
  cases N <;> rfl

/-- Two trees that agree up to `f` agree on every field that `f` keeps. -/
theorem info_eq_of_mapInfo_eq {f : NodeInfo → NodeInfo} {β : Type} {g : NodeInfo → β}
    (hg : ∀ m, g (f m) = g m) {X Y : Node} (h : X.mapInfo f = Y.mapInfo f) : g X.info = g Y.info := by
  have hi : f X.info = f Y.info := by simpa using congrArg Node.info h
  rw [← hg X.info, hi, hg]

/-- Children of trees that agree up to `f` agree up to `f`, position by position. -/
theorem children_mapInfo_eq {f : NodeInfo → NodeInfo} {X Y : Node} (h : X.mapInfo f = Y.mapInfo f) :
    X.children.map (Node.mapInfo f) = Y.children.map (Node.mapInfo f) := by
  simpa using congrArg Node.children h

/-- `f` keeps the fields that the page of a node and the block numbers of its subtree are made
of. -/
structure KeepsPage (f : NodeInfo → NodeInfo) : Prop where
  pagenum : ∀ m, (f m).pagenum = m.pagenum
  oldestleaf : ∀ m, (f m).oldestleaf = m.oldestleaf
  root : ∀ m, (f m).root = m.root
  height : ∀ m, (f m).height = m.height

theorem keepsPage_cleaned : KeepsPage NodeInfo.cleaned :=
  ⟨fun _ => rfl, fun _ => rfl, fun _ => rfl, fun _ => rfl⟩

theorem KeepsPage.page_mapInfo {f : NodeInfo → NodeInfo} (hf : KeepsPage f) (N : Node) :
    (N.mapInfo f).page = N.page := by
  cases N with
  | leaf m ps => simp [Node.page, hf.root, hf.height]
  | parent m ks cs => simp [Node.page, Node.childRef, hf.root, hf.height, hf.pagenum, hf.oldestleaf]

theorem KeepsPage.leafPagenums_mapInfo {f : NodeInfo → NodeInfo} (hf : KeepsPage f) (N : Node) :
    leafPagenums (N.mapInfo f) = leafPagenums N := by
  induction N using Node.ind with
  | leaf m ps => simp [hf.pagenum]
  | parent m ks cs ih =>
    simp only [mapInfo_parent, leafPagenums_parent, List.map_map]
    congr 1
    exact List.map_congr_left ih

/-- A node placed in the store: its page is stored at its number, its oldest leaf is the least
leaf number below it, and its children come before it. -/
structure Placed (S : BlockStore Page) (X : Node) : Prop where
  stored : S.blocks X.info.pagenum.toNat = some X.page
  oldest : OldestOK X
  before : ChildrenBefore X

/-- Changing fields that pages do not record keeps a node placed. -/
theorem KeepsPage.placed {f : NodeInfo → NodeInfo} (hf : KeepsPage f) {S : BlockStore Page}
    {X Y : Node} (h : X.mapInfo f = Y.mapInfo f) (hY : Placed S Y) : Placed S X := by
  have hnum : X.info.pagenum = Y.info.pagenum := info_eq_of_mapInfo_eq (g := NodeInfo.pagenum) hf.pagenum h
  have hold : X.info.oldestleaf = Y.info.oldestleaf :=
    info_eq_of_mapInfo_eq (g := NodeInfo.oldestleaf) hf.oldestleaf h
  have hpage : X.page = Y.page := by rw [← hf.page_mapInfo X, h, hf.page_mapInfo]
  have hleaves : leafPagenums X = leafPagenums Y := by
    rw [← hf.leafPagenums_mapInfo X, h, hf.leafPagenums_mapInfo]
  refine ⟨by rw [hnum, hpage]; exact hY.stored, by unfold OldestOK; rw [hold, hleaves]; exact hY.oldest, ?_⟩
  intro c hc
  obtain ⟨d, hd, hcd⟩ := exists_mapInfo_eq_of_mem (children_mapInfo_eq h) hc
  rw [info_eq_of_mapInfo_eq (g := NodeInfo.pagenum) hf.pagenum hcd, hnum]
  exact hY.before d hd

/-! ## Root flags and shape -/

/-- The children of a node do not have the root flag. -/
def NonRootChildren (X : Node) : Prop := ∀ c ∈ X.children, c.info.root = false

theorem nonRootChildren_of_mapInfo_eq {f : NodeInfo → NodeInfo} (hf : ∀ m, (f m).root = m.root)
    {X Y : Node} (h : X.mapInfo f = Y.mapInfo f) (hY : NonRootChildren Y) : NonRootChildren X := by
  intro c hc
  obtain ⟨d, hd, hcd⟩ := exists_mapInfo_eq_of_mem (children_mapInfo_eq h) hc
  rw [info_eq_of_mapInfo_eq (g := NodeInfo.root) hf hcd]
  exact hY d hd

theorem shapeAt_of_mapInfo_eq {f : NodeInfo → NodeInfo} (hf : ∀ m, (f m).height = m.height)
    {X Y : Node} (h : X.mapInfo f = Y.mapInfo f) (hY : ShapeAt Y) : ShapeAt X := by
  have hh : X.info.height = Y.info.height := info_eq_of_mapInfo_eq (g := NodeInfo.height) hf h
  cases X with
  | leaf m ps =>
    cases Y with
    | leaf m' ps' =>
      simp only [ShapeAt, info_leaf] at hY hh ⊢
      rw [hh, hY]
    | parent => simp at h
  | parent m ks cs =>
    cases Y with
    | leaf => simp at h
    | parent m' ks' cs' =>
      simp only [mapInfo_parent, Node.parent.injEq] at h
      obtain ⟨-, rfl, hcs⟩ := h
      simp only [ShapeAt, info_parent] at hY hh ⊢
      have hlen : cs.length = cs'.length := by simpa using congrArg List.length hcs
      refine ⟨hlen.trans hY.1, fun c hc => ?_⟩
      obtain ⟨d, hd, hcd⟩ := exists_mapInfo_eq_of_mem hcs hc
      rw [info_eq_of_mapInfo_eq (g := NodeInfo.height) hf hcd, hh]
      exact hY.2 d hd

theorem shape_of_mapInfo_eq {f : NodeInfo → NodeInfo} (hf : ∀ m, (f m).height = m.height)
    {N N' : Node} (h : N'.mapInfo f = N.mapInfo f) (hN : Shape N) : Shape N' :=
  Every.of_mapInfo_eq (fun _ _ hXY hY => shapeAt_of_mapInfo_eq hf hXY hY) h hN

theorem ShapeAt.children_ne_nil {X : Node} (h : ShapeAt X) (hX : X.isLeaf = false) :
    X.children ≠ [] := by
  cases X with
  | leaf m ps => simp [isLeaf] at hX
  | parent m ks cs =>
    intro hnil
    simp only [ShapeAt, Node.children] at h hnil
    simp [hnil] at h

/-- Only the root of a tree whose children never have the root flag has it. -/
theorem eq_of_mem_subtrees_of_root {N X : Node} (h : Every NonRootChildren N) (hX : X ∈ subtrees N)
    (hroot : X.info.root = true) : X = N := by
  induction N using Node.ind with
  | leaf m ps => simpa using hX
  | parent m ks cs ih =>
    simp only [subtrees_parent, List.mem_cons, List.mem_flatten, List.mem_map] at hX
    rcases hX with rfl | ⟨_, ⟨c, hc, rfl⟩, hX⟩
    · rfl
    · have hc' : c ∈ (Node.parent m ks cs).children := by simpa [Node.children] using hc
      have hXc := ih c hc (h.of_mem_children hc') hX
      have hcroot := h.self c hc'
      rw [← hXc, hroot] at hcroot
      cases hcroot

theorem root_eq_false_of_mem_child {N c X : Node} (h : Every NonRootChildren N)
    (hc : c ∈ N.children) (hX : X ∈ subtrees c) : X.info.root = false := by
  cases hroot : X.info.root
  · rfl
  · have hXc := eq_of_mem_subtrees_of_root (h.of_mem_children hc) hX hroot
    have hcroot := h.self c hc
    rw [← hXc, hroot] at hcroot
    cases hcroot

/-! ## Oldest leaves computed bottom-up -/

/-- Oldest leaves computed from the children's are right throughout a tree whose other nodes are
right throughout their subtrees, as soon as every computed node has children, numbered before
it. -/
theorem every_oldestOK {C : Node → Prop} {N : Node}
    (hsettled : ∀ X ∈ subtrees N, ¬ C X → Every (fun Y => OldestOK Y ∧ ChildrenBefore Y) X)
    (hcomp : ∀ X ∈ subtrees N, C X →
      OldestComputed X ∧ (X.isLeaf = false → X.children ≠ []) ∧ ChildrenBefore X) :
    Every (fun Y => OldestOK Y ∧ ChildrenBefore Y) N := by
  induction N using Node.ind with
  | leaf m ps =>
    by_cases hC : C (.leaf m ps)
    · obtain ⟨hX, hne, hb⟩ := hcomp _ (mem_subtrees_self _) hC
      exact every_leaf.mpr ⟨oldestOK_of_oldestComputed hX hne (by simp [Node.children]), hb⟩
    · exact hsettled _ (mem_subtrees_self _) hC
  | parent m ks cs ih =>
    -- the subtrees of a child are subtrees of the parent
    have hsub : ∀ c ∈ cs, subtrees c ⊆ subtrees (.parent m ks cs) := fun c hc =>
      subtrees_subset (mem_subtrees_of_mem_children (by simpa [Node.children] using hc))
    have hcs : ∀ c ∈ cs, Every (fun Y => OldestOK Y ∧ ChildrenBefore Y) c := fun c hc =>
      ih c hc (fun X hX => hsettled X (hsub c hc hX)) (fun X hX => hcomp X (hsub c hc hX))
    by_cases hC : C (.parent m ks cs)
    · obtain ⟨hX, hne, hb⟩ := hcomp _ (mem_subtrees_self _) hC
      refine every_parent.mpr ⟨⟨oldestOK_of_oldestComputed hX hne fun c hc => ?_, hb⟩, hcs⟩
      -- a child's oldest leaf is at most its own number, which is below the parent's
      have hc' : c ∈ cs := by simpa [Node.children] using hc
      have hok := (hcs c hc').self.1
      have hle := leafPagenums_le ((hcs c hc').imp fun _ h => h.2) _ hok.1
      exact ⟨hok, lt_of_le_of_lt hle (hb c hc)⟩
    · exact hsettled _ (mem_subtrees_self _) hC

/-! ## The committed tree -/

/-- A node of the committed tree in the store `S`: placed, and clean. -/
structure Settled (S : BlockStore Page) (X : Node) : Prop extends Placed S X where
  clean : X.info.state = .clean

/-- No page above the block of `R` has the root flag. -/
def RootLast (S : BlockStore Page) (R : Node) : Prop :=
  ∀ b pg, R.info.pagenum.toNat < b → S.blocks b = some pg → pg.root = false

/-- The committed tree `R` in the store `S`. -/
structure Committed (S : BlockStore Page) (R : Node) : Prop where
  wf : S.WF
  settled : Every (Settled S) R
  root : R.info.root = true
  nonroot : Every NonRootChildren R
  shape : Shape R
  rootLast : RootLast S R

/-- The dirty trees a batch hands to `btree_sync` while `R` is committed: the nodes it did not
dirty are nodes of `R`; the root has the root flag and no other node has it; and the tree has
the shape of a B+tree. -/
structure Batch (R D : Node) : Prop where
  shared : Every (fun X => X.info.state ≠ .dirty → X ∈ subtrees R) D
  root : D.info.root = true
  nonroot : Every NonRootChildren D
  shape : Shape D

/-- A dirty tree that `btree_sync` can write to the store `S`: below a node that is not dirty
every node is settled, and if the root is not dirty no page above it has the root flag. -/
structure Syncable (S : BlockStore Page) (D : Node) : Prop where
  settled : Every (fun X => X.info.state ≠ .dirty → Every (Settled S) X) D
  rootLast : D.info.state ≠ .dirty → RootLast S D
  root : D.info.root = true
  nonroot : Every NonRootChildren D
  shape : Shape D

section Committed

variable {S : BlockStore Page} {R D : Node}

theorem Committed.syncable (hR : Committed S R) (hD : Batch R D) : Syncable S D where
  settled := by
    refine every_iff_subtrees.mpr fun X hX hXd => every_iff_subtrees.mpr fun Y hY => ?_
    have hXR := every_iff_subtrees.mp hD.shared X hX hXd
    exact every_iff_subtrees.mp hR.settled Y (subtrees_subset hXR hY)
  rootLast := fun hd => by
    -- a root that is not dirty is the committed root
    have hDR := eq_of_mem_subtrees_of_root hR.nonroot
      (every_iff_subtrees.mp hD.shared D (mem_subtrees_self D) hd) hD.root
    rw [hDR]
    exact hR.rootLast
  root := hD.root
  nonroot := hD.nonroot
  shape := hD.shape

theorem Committed.oldestleaf_le (hR : Committed S R) {X : Node} (hX : X ∈ subtrees R) :
    R.info.oldestleaf.toNat ≤ X.info.pagenum.toNat :=
  oldestleaf_le_of_mem (hR.settled.imp fun _ hY => ⟨hY.oldest, hY.before⟩) hX

/-- A FREE below the committed root's oldest leaf keeps the committed tree. -/
theorem Committed.frees (hR : Committed S R) {S' : BlockStore Page}
    (hfree : S.Frees S' R.info.oldestleaf.toNat) : Committed S' R where
  wf := hR.wf.frees hfree
  settled := every_iff_subtrees.mpr fun X hX =>
    have hX' := every_iff_subtrees.mp hR.settled X hX
    { hX' with stored := by rw [hfree.blocks_of_le (hR.oldestleaf_le hX)]; exact hX'.stored }
  root := hR.root
  nonroot := hR.nonroot
  shape := hR.shape
  rootLast := fun b pg hb hpg => hR.rootLast b pg hb (hfree.blocks_eq_some hpg)

/-- The oldest leaf `btree_init` computes from the page of a committed root is the root's own. -/
theorem Committed.initOldestleaf (hR : Committed S R) :
    initOldestleaf R.info.pagenum R.page = R.info.oldestleaf := by
  have hok := hR.settled.self.oldest
  cases R with
  | leaf m ps =>
    have hh : m.height = 0 := shape_leaf.mp hR.shape
    simp only [OldestOK, leafPagenums_leaf, List.mem_singleton, info_leaf] at hok
    simp only [initOldestleaf, Node.page, hh, ne_eq, not_true_eq_false, if_false, info_leaf]
    exact UInt64.ext hok.1.symm
  | parent m ks cs =>
    obtain ⟨hlen, hcs⟩ := shape_parent.mp hR.shape
    obtain ⟨c₀, hc₀⟩ := List.exists_mem_of_ne_nil cs (by intro h; simp [h] at hlen)
    have hh : m.height ≠ 0 := by have := (hcs c₀ hc₀).1; omega
    have hmap : (cs.map Node.childRef).map (fun c => c.oldestleaf) = cs.map fun c => c.info.oldestleaf := by
      simp [Node.childRef]
    simp only [initOldestleaf, Node.page, hh, ne_eq, not_false_eq_true, if_true, hmap, info_parent]
    obtain ⟨hmem, -, hall⟩ := oldestLoop_spec uint64Max (cs.map fun c => c.info.oldestleaf)
    have hchild : ∀ c ∈ cs, OldestOK c := fun c hc =>
      (hR.settled.of_mem_children (by simpa [Node.children] using hc)).self.oldest
    refine UInt64.ext (le_antisymm ?_ ?_)
    · -- the root's oldest leaf is a leaf number below some child, at least that child's oldest leaf
      have hin := hok.1
      simp only [info_parent, leafPagenums_parent, List.mem_flatten, List.mem_map] at hin
      obtain ⟨_, ⟨c, hc, rfl⟩, hp⟩ := hin
      exact (hall _ (List.mem_map_of_mem hc)).trans ((hchild c hc).2 _ hp)
    · -- the loop keeps its start, the largest number, or takes a child's oldest leaf
      rcases hmem with h | h
      · rw [h]
        have hlt := UInt64.toNat_lt m.oldestleaf
        have hmax : uint64Max.toNat = 2 ^ 64 - 1 := rfl
        omega
      · obtain ⟨c, hc, hceq⟩ := List.mem_map.mp h
        rw [← hceq]
        exact hok.2 _ (leafPagenums_subset (mem_subtrees_of_mem_children (X := .parent m ks cs)
          (by simpa [Node.children] using hc)) (hchild c hc).1)

end Committed

/-! ## A sync -/

section Sync

variable {S : BlockStore Page} {D D' : Node} {ps : List Page}

/-- What `serializetree_spec` says of `btree_sync` on the whole dirty tree. -/
theorem btreeSync_serialized {pagelen b : ℕ}
    (h : btreeSync pagelen (UInt64.ofNat b) D = some (D', ps)) : Serialized b D [] D' ps := by
  unfold btreeSync at h
  split at h
  · cases h
  · rename_i r hr
    split_ifs at h
    cases h
    exact (serializetree_spec pagelen b).1 D [] _ _ hr

/-- The dirty nodes numbered from the first unused block are stored at their numbers once their
pages are appended. -/
theorem stored_of_numbered {l : List Node} (h : NumberedFrom S.nextblk l)
    (hfit : S.nextblk + l.length ≤ 2 ^ 64) (n : ℕ) {X : Node} (hX : X ∈ l) :
    (S.append (l.map Node.page) n).blocks X.info.pagenum.toNat = some X.page := by
  obtain ⟨i, hi, rfl⟩ := List.mem_iff_getElem.mp hX
  rw [h.toNat_getElem hfit hi, BlockStore.append_blocks_add (by simpa using hi)]
  simp

section Serialized

variable (hS : Syncable S D) (hser : Serialized S.nextblk D [] D' ps)
include hS hser

/-- A node of the synced tree that is not dirty is a settled node of the store. -/
theorem Syncable.settled_of_serialized {X : Node} (hX : X ∈ subtrees D')
    (hd : X.info.state ≠ .dirty) : Every (Settled S) X :=
  every_iff_subtrees.mp hS.settled X (every_iff_subtrees.mp hser.clean X hX hd) hd

/-- Every dirty node of the synced tree is numbered and written. -/
theorem Syncable.mem_dirtyPost {X : Node} (hX : X ∈ subtrees D') (hd : X.info.state = .dirty) :
    X ∈ dirtyPost D' := by
  refine mem_dirtyPost_of_dirty (every_iff_subtrees.mpr fun Y hY hYd => ?_) hX hd
  exact (hS.settled_of_serialized hser hY hYd).imp fun Z hZ => by rw [hZ.clean]; simp

theorem Syncable.nonroot_serialized : Every NonRootChildren D' :=
  Every.of_mapInfo_eq
    (fun _ _ hXY hY => nonRootChildren_of_mapInfo_eq (f := NodeInfo.unnumbered) (fun _ => rfl) hXY hY)
    hser.unnumbered hS.nonroot

/-- Every page of a sync but the last is the page of a node below the root. -/
theorem Syncable.page_root_eq_false {i : ℕ} (hi : i + 1 < ps.length) {pg : Page}
    (hpg : ps[i]? = some pg) : pg.root = false := by
  have hpages : ps = (dirtyPost D').map Node.page := by simpa using hser.pages
  have hd : D'.info.state = .dirty := by
    by_contra hd
    rw [hpages, dirtyPost_of_not_dirty hd] at hi
    simp at hi
  rw [hpages, dirtyPost_of_dirty hd] at hi hpg
  have hi' : i < (dirtyPostList D'.children).length := by simpa using hi
  rw [List.getElem?_map, List.getElem?_append_left hi', Option.map_eq_some_iff] at hpg
  obtain ⟨X, hX, rfl⟩ := hpg
  have hXmem := List.mem_of_getElem? hX
  simp only [dirtyPostList_eq, List.mem_flatten, List.mem_map] at hXmem
  obtain ⟨_, ⟨c, hc, rfl⟩, hXc⟩ := hXmem
  rw [page_root]
  exact root_eq_false_of_mem_child (hS.nonroot_serialized hser) hc (mem_subtrees_of_mem_dirtyPost hXc)

variable (hwf : S.WF) (hfit : S.nextblk + ps.length ≤ 2 ^ 64)
include hwf hfit

/-- After the APPEND every node of the synced tree is placed: the dirty nodes at their new
blocks, the others where they were. -/
theorem Syncable.placed (n : ℕ) : Every (Placed (S.append ps n)) D' := by
  have hpages : ps = (dirtyPost D').map Node.page := by simpa using hser.pages
  have hnum : NumberedFrom S.nextblk (dirtyPost D') := by simpa using hser.numbered
  have hfit' : S.nextblk + (dirtyPost D').length ≤ 2 ^ 64 := by simpa [hpages] using hfit
  -- a node that is not dirty is settled below the first unused block
  have hold : ∀ X ∈ subtrees D', X.info.state ≠ .dirty →
      Settled S X ∧ X.info.pagenum.toNat < S.nextblk := fun X hX hd =>
    have hX' := (hS.settled_of_serialized hser hX hd).self
    ⟨hX', hwf.lt_of_eq_some hX'.stored⟩
  -- a dirty node comes after its dirty children, and after every block written before
  have hbefore : ∀ X ∈ subtrees D', X.info.state = .dirty → ChildrenBefore X := by
    intro X hX hd c hc
    have hXpost := hS.mem_dirtyPost hser hX hd
    by_cases hcd : c.info.state = .dirty
    · exact numbered_before hnum hfit' X hXpost c hc hcd
    · have h₁ := (hold c (subtrees_subset hX (mem_subtrees_of_mem_children hc)) hcd).2
      have h₂ := (hnum.toNat_mem hfit' hXpost).1
      omega
  have hshape : Shape D' :=
    shape_of_mapInfo_eq (f := NodeInfo.unnumbered) (fun _ => rfl) hser.unnumbered hS.shape
  have hok : Every (fun X => OldestOK X ∧ ChildrenBefore X) D' := by
    refine every_oldestOK (C := fun X => X.info.state = .dirty) (fun X hX hd => ?_)
      (fun X hX hd => ⟨hser.oldest X (hS.mem_dirtyPost hser hX hd), ?_, hbefore X hX hd⟩)
    · exact (hS.settled_of_serialized hser hX hd).imp fun _ hY => ⟨hY.oldest, hY.before⟩
    · exact (every_iff_subtrees.mp hshape X hX).children_ne_nil
  refine every_iff_subtrees.mpr fun X hX => ⟨?_, (every_iff_subtrees.mp hok X hX).1,
    (every_iff_subtrees.mp hok X hX).2⟩
  by_cases hd : X.info.state = .dirty
  · rw [hpages]
    exact stored_of_numbered hnum hfit' n (hS.mem_dirtyPost hser hX hd)
  · obtain ⟨hX', hlt⟩ := hold X hX hd
    rw [BlockStore.append_blocks_of_lt hlt]
    exact hX'.stored

/-- After the APPEND no page above the synced root has the root flag: a dirty root is the last
block written, and a root that is not dirty is the committed root, with nothing written. -/
theorem Syncable.rootLast_serialized (n : ℕ) : RootLast (S.append ps n) D' := by
  have hpages : ps = (dirtyPost D').map Node.page := by simpa using hser.pages
  intro b pg hb hpg
  by_cases hd : D'.info.state = .dirty
  · -- the root is numbered last
    have hnum : NumberedFrom S.nextblk (dirtyPostList D'.children ++ [D']) := by
      simpa [dirtyPost_of_dirty hd] using hser.numbered
    have hlen : ps.length = (dirtyPostList D'.children).length + 1 := by
      simp [hpages, dirtyPost_of_dirty hd]
    have hroot := (numberedFrom_append.mp hnum).2.toNat_getElem (by simp; omega) (i := 0) (by simp)
    simp only [List.getElem_cons_zero, Nat.add_zero] at hroot
    rw [BlockStore.append_blocks_of_ge (by omega), hwf b (by omega)] at hpg
    cases hpg
  · -- the root is the committed root and nothing is appended
    have hDD : D' = D := eq_of_mem_subtrees_of_root hS.nonroot (hser.clean.self hd)
      ((info_eq_of_mapInfo_eq (f := NodeInfo.unnumbered) (g := NodeInfo.root) (fun _ => rfl)
        hser.unnumbered).trans hS.root)
    have hnil : ps = [] := by simp [hpages, dirtyPost_of_not_dirty hd]
    subst hDD hnil
    have hpg' : S.blocks b = some pg := by
      by_cases hlt : b < S.nextblk
      · rwa [BlockStore.append_blocks_of_lt hlt] at hpg
      · rwa [BlockStore.append_blocks_of_ge (by simp; omega)] at hpg
    exact hS.rootLast hd b pg hb hpg'

end Serialized

/-- A sync of a dirty tree writable to `S`, the APPEND reporting `n` as the next block: the tree
made clean is the committed tree of the store with the pages appended. -/
theorem Syncable.sync_committed {pagelen n : ℕ} (hS : Syncable S D) (hwf : S.WF)
    (hsync : btreeSync pagelen (UInt64.ofNat S.nextblk) D = some (D', ps))
    (hnext : S.nextblk + ps.length ≤ n) (hn : n ≤ 2 ^ 64) :
    ∃ R', makeclean D' = some R' ∧ Committed (S.append ps n) R' := by
  have hser := btreeSync_serialized hsync
  have hfit : S.nextblk + ps.length ≤ 2 ^ 64 := by omega
  -- `makeclean` finds the nodes that are not dirty clean all the way down
  obtain ⟨R', hR', hRD, hclean⟩ := makeclean_spec (N := D') (every_iff_subtrees.mpr fun X hX hd =>
    (hS.settled_of_serialized hser hX hd).imp fun _ hY => hY.clean)
  have hnum : R'.info.pagenum = D'.info.pagenum :=
    info_eq_of_mapInfo_eq (f := NodeInfo.cleaned) (g := NodeInfo.pagenum) (fun _ => rfl) hRD
  refine ⟨R', hR', hwf.append hnext, ?_, ?_, ?_, ?_, ?_⟩
  · have hplaced := Every.of_mapInfo_eq (fun _ _ hXY hY => keepsPage_cleaned.placed hXY hY) hRD
      (hS.placed hser hwf hfit n)
    exact (hplaced.and hclean).imp fun _ h => ⟨h.1, h.2⟩
  · rw [info_eq_of_mapInfo_eq (f := NodeInfo.cleaned) (g := NodeInfo.root) (fun _ => rfl) hRD,
      info_eq_of_mapInfo_eq (f := NodeInfo.unnumbered) (g := NodeInfo.root) (fun _ => rfl)
        hser.unnumbered]
    exact hS.root
  · exact Every.of_mapInfo_eq
      (fun _ _ hXY hY => nonRootChildren_of_mapInfo_eq (f := NodeInfo.cleaned) (fun _ => rfl) hXY hY) hRD (hS.nonroot_serialized hser)
  · exact shape_of_mapInfo_eq (f := NodeInfo.cleaned) (fun _ => rfl) hRD
      (shape_of_mapInfo_eq (f := NodeInfo.unnumbered) (fun _ => rfl) hser.unnumbered hS.shape)
  · intro b pg hb hpg
    rw [hnum] at hb
    exact hS.rootLast_serialized hser hwf hfit n b pg hb hpg

end Sync

/-! ## Paging the tree back in -/

/-- The fields of a node that its page, and the record of it in its parent's page, keep. -/
def NodeInfo.pageFields (m : NodeInfo) : NodeInfo :=
  { pagenum := m.pagenum, oldestleaf := m.oldestleaf, oldestncleaf := 0, pagesize := none,
    state := .clean, root := m.root, merging := false, needmerge := false, height := m.height,
    mlenT := 0, mlenN := 0 }

theorem keepsPage_pageFields : KeepsPage NodeInfo.pageFields :=
  ⟨fun _ => rfl, fun _ => rfl, fun _ => rfl, fun _ => rfl⟩

/-- A tree that `btree_init` pages in from the store `S`: every node is clean, is read from the
page stored at its number, and is a leaf exactly when that page is at height 0.  The root's
number is the block the scan found, and each other node's number and oldest leaf are the record
of it in its parent's page. -/
def Loaded (S : BlockStore Page) (L : Node) : Prop :=
  Every (fun X => X.info.state = .clean ∧ S.blocks X.info.pagenum.toNat = some X.page ∧
    X.isLeaf = decide (X.info.height = 0)) L

/-- Two lists of children with the same records agree up to `f`, when each two nodes with the
same record do. -/
theorem map_mapInfo_eq_of_childRefs {f : NodeInfo → NodeInfo} :
    ∀ {cs' cs : List Node}, cs'.map Node.childRef = cs.map Node.childRef →
      (∀ c' ∈ cs', ∀ c ∈ cs, c'.childRef = c.childRef → c'.mapInfo f = c.mapInfo f) →
      cs'.map (Node.mapInfo f) = cs.map (Node.mapInfo f)
  | [], [], _, _ => rfl
  | [], _ :: _, h, _ => by simp at h
  | _ :: _, [], h, _ => by simp at h
  | c' :: cs', c :: cs, h, hpair => by
    simp only [List.map_cons, List.cons.injEq] at h ⊢
    exact ⟨hpair c' List.mem_cons_self c List.mem_cons_self h.1,
      map_mapInfo_eq_of_childRefs h.2 fun d' hd' d hd =>
        hpair d' (List.mem_cons_of_mem _ hd') d (List.mem_cons_of_mem _ hd)⟩

/-- The tree paged in from the block of a stored tree of B+tree shape is that tree, up to the
fields pages do not record, when the root's number and oldest leaf are the stored root's. -/
theorem Loaded.mapInfo_eq {S : BlockStore Page} {R : Node} :
    ∀ {L : Node}, Loaded S L → Every (fun X => S.blocks X.info.pagenum.toNat = some X.page) R →
      Shape R → L.info.pagenum = R.info.pagenum → L.info.oldestleaf = R.info.oldestleaf →
      L.mapInfo NodeInfo.pageFields = R.mapInfo NodeInfo.pageFields := by
  induction R using Node.ind with
  | leaf m ps =>
    intro L hL hR hshape hnum hold
    have hpage : L.page = (Node.leaf m ps).page := by
      have h := hL.self.2.1
      rw [hnum, hR.self] at h
      exact (Option.some.inj h).symm
    have hh : m.height = 0 := shape_leaf.mp hshape
    cases L with
    | leaf m' ps' =>
      simp only [Node.page, Page.mk.injEq] at hpage
      obtain ⟨hroot, hheight, rfl, -, -⟩ := hpage
      simp only [info_leaf] at hnum hold
      simp [NodeInfo.pageFields, hnum, hold, hroot, hheight]
    | parent m' ks' cs' =>
      -- the page is at height 0, so `deserialize` reads a leaf
      have hleaf := hL.self.2.2
      simp only [Node.page, Page.mk.injEq] at hpage
      simp [isLeaf, hpage.2.1, hh] at hleaf
  | parent m ks cs ih =>
    intro L hL hR hshape hnum hold
    have hpage : L.page = (Node.parent m ks cs).page := by
      have h := hL.self.2.1
      rw [hnum, hR.self] at h
      exact (Option.some.inj h).symm
    obtain ⟨hlen, hcs⟩ := shape_parent.mp hshape
    obtain ⟨c₀, hc₀⟩ := List.exists_mem_of_ne_nil cs (by intro h; simp [h] at hlen)
    have hh : m.height ≠ 0 := by have := (hcs c₀ hc₀).1; omega
    cases L with
    | leaf m' ps' =>
      -- the page is above height 0, so `deserialize` reads a parent
      have hleaf := hL.self.2.2
      simp only [Node.page, Page.mk.injEq] at hpage
      simp [isLeaf, hpage.2.1, hh] at hleaf
    | parent m' ks' cs' =>
      simp only [Node.page, Page.mk.injEq] at hpage
      obtain ⟨hroot, hheight, -, rfl, hrefs⟩ := hpage
      simp only [info_parent] at hnum hold
      -- each child is read from the block its record names, so each agrees by induction
      have hchildren := map_mapInfo_eq_of_childRefs hrefs fun c' hc' c hc href =>
        ih c hc (hL.of_mem_children (by simpa [Node.children] using hc'))
          (hR.of_mem_children (by simpa [Node.children] using hc)) (hcs c hc).2
          (congrArg ChildRef.pagenum href) (congrArg ChildRef.oldestleaf href)
      simp [NodeInfo.pageFields, hnum, hold, hroot, hheight, hchildren]

/-- A tree committed in one store is committed in another that keeps its pages, has no root page
above it and is well formed. -/
theorem Committed.move {S S' : BlockStore Page} {R : Node} (hR : Committed S R) (hwf : S'.WF)
    (hstored : Every (fun X => S'.blocks X.info.pagenum.toNat = some X.page) R)
    (hrl : RootLast S' R) : Committed S' R where
  wf := hwf
  settled := (hR.settled.and hstored).imp fun _ h => { h.1 with stored := h.2 }
  root := hR.root
  nonroot := hR.nonroot
  shape := hR.shape
  rootLast := hrl

/-- A clean tree that agrees with a committed tree on the fields pages keep is committed. -/
theorem Committed.of_mapInfo_eq {f : NodeInfo → NodeInfo} (hf : KeepsPage f)
    {S : BlockStore Page} {R L : Node} (hR : Committed S R) (h : L.mapInfo f = R.mapInfo f)
    (hclean : Every (fun X => X.info.state = .clean) L) : Committed S L where
  wf := hR.wf
  settled := ((Every.of_mapInfo_eq (fun _ _ hXY hY => hf.placed hXY hY) h
      (hR.settled.imp fun _ hY => hY.toPlaced)).and hclean).imp fun _ hX => ⟨hX.1, hX.2⟩
  root := by
    rw [info_eq_of_mapInfo_eq (g := NodeInfo.root) hf.root h]
    exact hR.root
  nonroot := Every.of_mapInfo_eq (fun _ _ hXY hY => nonRootChildren_of_mapInfo_eq hf.root hXY hY)
    h hR.nonroot
  shape := shape_of_mapInfo_eq hf.height h hR.shape
  rootLast := fun b pg hb hpg => hR.rootLast b pg
    (by rwa [info_eq_of_mapInfo_eq (g := NodeInfo.pagenum) hf.pagenum h] at hb) hpg

/-! ## Finding the root after a crash -/

theorem ofNat_succ_sub_one (n : ℕ) : UInt64.ofNat (n + 1) - 1 = UInt64.ofNat n := by
  rw [UInt64.ofNat_add]
  simp

/-- Above block zero the unsigned counter does not wrap: from a block `n` below the first unused
block, the root scan of `btree_init` is `Lib.scanDown` for a page with the root flag. -/
theorem rootScan_eq_scanDown (get : UInt64 → Option Page) {nextblk : UInt64} :
    ∀ n, n < nextblk.toNat → rootScan get nextblk (n + 1) (UInt64.ofNat n) =
      (scanDown Page.root (fun b => get (UInt64.ofNat b)) n).bind fun b =>
        (get (UInt64.ofNat b)).map fun pg => (UInt64.ofNat b, pg) := by
  intro n
  induction n with
  | zero =>
    intro hn
    have hlt : UInt64.ofNat 0 < nextblk := by
      rw [UInt64.lt_iff_toNat_lt]
      simpa using hn
    rw [rootScan, if_pos hlt]
    cases hget : get (UInt64.ofNat 0) with
    | none => simp only [rootScan, scanDown, hget, Option.any_none, Bool.false_eq_true, if_false,
        Option.bind_none]
    | some pg =>
      cases hroot : pg.root <;> simp only [rootScan, scanDown, hget, hroot, Option.any_some,
        Bool.false_eq_true, if_false, if_true, Option.bind_none, Option.bind_some, Option.map_some]
  | succ n ih =>
    intro hn
    have hsize := UInt64.toNat_lt nextblk
    have hlt : UInt64.ofNat (n + 1) < nextblk := by
      rw [UInt64.lt_iff_toNat_lt, UInt64.toNat_ofNat_of_lt' (by simp [UInt64.size]; omega)]
      exact hn
    -- a block that is absent or not a root sends the scan one block down
    rw [rootScan, if_pos hlt, ofNat_succ_sub_one, ih (by omega)]
    cases hget : get (UInt64.ofNat (n + 1)) with
    | none => simp only [scanDown, hget, Option.any_none, Bool.false_eq_true, if_false]
    | some pg =>
      cases hroot : pg.root <;> simp only [scanDown, hget, hroot, Option.any_some,
        Bool.false_eq_true, if_false, if_true, Option.bind_some, Option.map_some]

/-- The root scan from the last block finds a page with the root flag when no page above it has
the flag. -/
theorem btreeInitScan_eq_some {get : ℕ → Option Page} {r : ℕ} {pg : Page}
    {nextblk lastblk : UInt64} (hr : get r = some pg) (hroot : pg.root = true)
    (habove : ∀ b pg', r < b → get b = some pg' → pg'.root = false)
    (hlast : ∀ b, lastblk.toNat < b → get b = none) (hnext : lastblk < nextblk) :
    btreeInitScan (fun b => get b.toNat) nextblk lastblk = some (UInt64.ofNat r, pg) := by
  have hrle : r ≤ lastblk.toNat := by
    by_contra h
    rw [hlast r (by omega)] at hr
    cases hr
  have hsmall : ∀ b, b ≤ lastblk.toNat → (UInt64.ofNat b).toNat = b := fun b hb =>
    UInt64.toNat_ofNat_of_lt' (by have := UInt64.toNat_lt lastblk; simp [UInt64.size]; omega)
  have hscan : scanDown Page.root (fun b => get (UInt64.ofNat b).toNat) lastblk.toNat = some r := by
    refine scanDown_eq_some (by rw [hsmall r hrle, hr, Option.any_some]; exact hroot) hrle
      fun b h₁ h₂ => ?_
    rw [hsmall b h₂]
    cases hb : get b with
    | none => rfl
    | some pg' => simpa using habove b pg' h₁ hb
  have hfrom := rootScan_eq_scanDown (fun b => get b.toNat) lastblk.toNat
    (UInt64.lt_iff_toNat_lt.mp hnext)
  rw [UInt64.ofNat_toNat] at hfrom
  rw [btreeInitScan, hfrom, hscan, Option.bind_some, hsmall r hrle, hr, Option.map_some]

/-- The root scan finds a root whose page is stored and above which no page has the root
flag. -/
theorem btreeInitScan_of_rootLast {S : BlockStore Page} {R : Node}
    (hR : S.blocks R.info.pagenum.toNat = some R.page) (hroot : R.info.root = true)
    (hlastR : RootLast S R) {nextblk lastblk : UInt64}
    (hlast : ∀ b, lastblk.toNat < b → S.blocks b = none) (hnext : lastblk < nextblk) :
    btreeInitScan (fun b => S.blocks b.toNat) nextblk lastblk = some (R.info.pagenum, R.page) := by
  rw [btreeInitScan_eq_some hR (by rw [page_root]; exact hroot) hlastR hlast hnext,
    UInt64.ofNat_toNat]

/-- A crash during the APPEND of a sync that did not write the last block keeps the pages of
the committed tree, and leaves no page with the root flag above its root. -/
theorem Committed.crash_keeps {S S' : BlockStore Page} {R D D' : Node} {ps : List Page}
    (hR : Committed S R) (hD : Batch R D) (hser : Serialized S.nextblk D [] D' ps)
    (hcrash : S.CrashedAppend ps S')
    (hlast : ps = [] ∨ S'.blocks (S.nextblk + ps.length - 1) = none) :
    Every (fun X => S'.blocks X.info.pagenum.toNat = some X.page) R ∧ RootLast S' R := by
  refine ⟨hR.settled.imp fun X hX => ?_, fun b pg hb hpg => ?_⟩
  · have hlt := hR.wf.lt_of_eq_some hX.stored
    rw [hcrash.1 _ (by omega)]
    exact hX.stored
  · rcases hcrash.blocks_eq_some hpg with hold | ⟨i, hi, rfl, rfl⟩
    · exact hR.rootLast b pg hb hold
    · by_cases hnotlast : i + 1 < ps.length
      · exact (hR.syncable hD).page_root_eq_false hser hnotlast (List.getElem?_eq_getElem hi)
      · -- the block is the last one, which the crash did not write
        have hidx : S.nextblk + i = S.nextblk + ps.length - 1 := by omega
        rcases hlast with h | h
        · simp [h] at hi
        · rw [hidx, h] at hpg
          cases hpg

/-- After a crash during the APPEND of a sync of a dirty tree built from the committed tree, the
tree of the last batch whose APPEND wrote its last block is whole in the store, with no root page
above it: the synced tree if the crash came after that block, the committed tree otherwise. -/
theorem Committed.crashed {pagelen : ℕ} {S S' : BlockStore Page} {R D D' : Node} {ps : List Page}
    (hR : Committed S R) (hD : Batch R D)
    (hsync : btreeSync pagelen (UInt64.ofNat S.nextblk) D = some (D', ps))
    (hfit : S.nextblk + ps.length ≤ 2 ^ 64) (hcrash : S.CrashedAppend ps S') :
    ∃ R₀ S₀, Committed S₀ R₀ ∧ Every (fun X => S'.blocks X.info.pagenum.toNat = some X.page) R₀ ∧
      RootLast S' R₀ ∧
      ((ps ≠ [] ∧ S'.blocks (S.nextblk + ps.length - 1) ≠ none ∧ makeclean D' = some R₀) ∨
        ((ps = [] ∨ S'.blocks (S.nextblk + ps.length - 1) = none) ∧ R₀ = R)) := by
  by_cases hdone : ps ≠ [] ∧ S'.blocks (S.nextblk + ps.length - 1) ≠ none
  · -- the last block is written, so all are: the synced tree is committed
    obtain ⟨R', hR', hcomm⟩ := (hR.syncable hD).sync_committed hR.wf hsync le_rfl hfit
    have hblocks := hcrash.eq_append hdone.2 (List.length_pos_iff.mpr hdone.1)
      (S.nextblk + ps.length)
    refine ⟨R', _, hcomm, hcomm.settled.imp fun X hX => by rw [hblocks]; exact hX.stored,
      fun b pg hb hpg => ?_, Or.inl ⟨hdone.1, hdone.2, hR'⟩⟩
    rw [hblocks] at hpg
    exact hcomm.rootLast b pg hb hpg
  · -- the last block is missing: the committed tree is intact
    have hnot : ps = [] ∨ S'.blocks (S.nextblk + ps.length - 1) = none := by
      by_cases hps : ps = []
      · exact Or.inl hps
      · exact Or.inr (not_not.mp fun h => hdone ⟨hps, h⟩)
    obtain ⟨hstored, hrl⟩ := hR.crash_keeps hD (btreeSync_serialized hsync) hcrash hnot
    exact ⟨R, S, hR, hstored, hrl, Or.inr ⟨hnot, rfl⟩⟩

/-- `btree_init` on the store a crash during the APPEND of a sync leaves: the root scan from the
last block the store reports finds the root of the last batch whose APPEND wrote its last block,
and the tree paged in from it, with the root's oldest leaf computed from its page, is committed
in that store. -/
theorem Committed.restart {pagelen : ℕ} {S S' : BlockStore Page} {R D D' L : Node}
    {ps : List Page} (hR : Committed S R) (hD : Batch R D)
    (hsync : btreeSync pagelen (UInt64.ofNat S.nextblk) D = some (D', ps))
    (hfit : S.nextblk + ps.length ≤ 2 ^ 64) (hcrash : S.CrashedAppend ps S')
    {nextblk lastblk rootblk : UInt64} {pg : Page} (hnext : nextblk.toNat = S'.nextblk)
    (hlt : lastblk < nextblk) (hlast : ∀ b, lastblk.toNat < b → S'.blocks b = none)
    (hscan : btreeInitScan (fun b => S'.blocks b.toNat) nextblk lastblk = some (rootblk, pg))
    (hL : Loaded S' L) (hnum : L.info.pagenum = rootblk)
    (hold : L.info.oldestleaf = Kvlds.initOldestleaf rootblk pg) : Committed S' L := by
  obtain ⟨R₀, S₀, hR₀, hstored, hrl, -⟩ := hR.crashed hD hsync hfit hcrash
  -- every block from the one the store reports as next is absent
  have hwf : S'.WF := fun b hb => hlast b (by have := UInt64.lt_iff_toNat_lt.mp hlt; omega)
  have hR' : Committed S' R₀ := hR₀.move hwf hstored hrl
  -- the scan finds `R₀`
  have hfound := btreeInitScan_of_rootLast hstored.self hR₀.root hrl hlast hlt
  rw [hscan, Option.some.injEq, Prod.mk.injEq] at hfound
  obtain ⟨rfl, rfl⟩ := hfound
  have hold' : L.info.oldestleaf = R₀.info.oldestleaf := by rw [hold, hR'.initOldestleaf]
  exact hR'.of_mapInfo_eq keepsPage_pageFields (hL.mapInfo_eq hstored hR₀.shape hnum hold')
    (hL.imp fun _ h => h.1)

/-! ## Runs -/

/-- The state of kvlds that syncs and FREEs change: the committed tree with the next block, and
the block store. -/
structure KvldsState where
  tree : BTree
  store : BlockStore Page

/-- A block store with no blocks, as `btree_init` requires when it finds no root. -/
def emptyStore : BlockStore Page := ⟨fun _ => none, 0⟩

theorem emptyStore_wf : emptyStore.WF := fun _ _ => rfl

/-- A step of kvlds on its committed tree. -/
inductive Step (pagelen : ℕ) : KvldsState → KvldsState → Prop
  /-- A batch: `btree_sync` of a dirty tree built from the committed tree, the APPEND reporting
  `blkno` as the next block, then `callback_append` and `callback_unshadow`. -/
  | sync {K : KvldsState} {D D' : Node} {ps : List Page} {blkno : UInt64} {T' : BTree}
      (hD : Batch K.tree.rootShadow D) (hsync : btreeSync pagelen K.tree.nextblk D = some (D', ps))
      (hnext : K.store.nextblk + ps.length ≤ blkno.toNat)
      (happ : callbackAppend D' blkno = some T') :
      Step pagelen K ⟨T', K.store.append ps blkno.toNat⟩
  /-- `callback_gc`: the store frees some of the blocks below the committed root's oldest leaf. -/
  | gc {K : KvldsState} {S' : BlockStore Page} (hfree : K.store.Frees S' (callbackGc K.tree).toNat) :
      Step pagelen K ⟨K.tree, S'⟩
  /-- A crash during the APPEND of a sync, then `btree_init` on the store it leaves, which
  reports `lastblk` as its last block and `nextblk` as the next: the root scan finds a root page
  `pg` at `rootblk`, and the tree is paged in from it, with the root's oldest leaf computed from
  its page.  A crash between batches is the crash of a sync with nothing to write. -/
  | restart {K : KvldsState} {D D' L : Node} {ps : List Page} {S' : BlockStore Page}
      {nextblk lastblk rootblk : UInt64} {pg : Page}
      (hD : Batch K.tree.rootShadow D) (hsync : btreeSync pagelen K.tree.nextblk D = some (D', ps))
      (hfit : K.store.nextblk + ps.length ≤ 2 ^ 64) (hcrash : K.store.CrashedAppend ps S')
      (hnext : nextblk.toNat = S'.nextblk) (hlt : lastblk < nextblk)
      (hlast : ∀ b, lastblk.toNat < b → S'.blocks b = none)
      (hscan : btreeInitScan (fun b => S'.blocks b.toNat) nextblk lastblk = some (rootblk, pg))
      (hL : Loaded S' L) (hnum : L.info.pagenum = rootblk)
      (hold : L.info.oldestleaf = initOldestleaf rootblk pg) :
      Step pagelen K ⟨⟨L, nextblk⟩, S'⟩

/-- The states kvlds reaches from `btree_init` on an empty store. -/
inductive Reachable (pagelen : ℕ) : KvldsState → Prop
  /-- `btree_init` on an empty store syncs a root leaf. -/
  | init {D' : Node} {ps : List Page} {blkno : UInt64} {T' : BTree}
      (hsync : btreeSync pagelen 0 initRootLeaf = some (D', ps)) (hnext : ps.length ≤ blkno.toNat)
      (happ : callbackAppend D' blkno = some T') :
      Reachable pagelen ⟨T', emptyStore.append ps blkno.toNat⟩
  | step {K K' : KvldsState} : Reachable pagelen K → Step pagelen K K' → Reachable pagelen K'

/-- The invariant: the committed tree is committed in the store, and the tree's next block is
the store's. -/
structure Durable (K : KvldsState) : Prop where
  committed : Committed K.store K.tree.rootShadow
  nextblk : K.tree.nextblk.toNat = K.store.nextblk

theorem Durable.nextblk_eq {K : KvldsState} (hK : Durable K) :
    K.tree.nextblk = UInt64.ofNat K.store.nextblk := by
  rw [← hK.nextblk, UInt64.ofNat_toNat]

theorem syncable_initRootLeaf : Syncable emptyStore initRootLeaf where
  settled := by simp [initRootLeaf, mknodeInfo]
  rootLast := by simp [initRootLeaf, mknodeInfo]
  root := rfl
  nonroot := by simp [NonRootChildren, initRootLeaf, Node.children]
  shape := by simp [initRootLeaf, mknodeInfo]

/-- `callback_append` commits the tree `makeclean` leaves. -/
theorem callbackAppend_committed {D' : Node} {blkno : UInt64} {T' : BTree} {S' : BlockStore Page}
    (happ : callbackAppend D' blkno = some T') (hS' : S'.nextblk = blkno.toNat)
    (hcomm : ∃ R', makeclean D' = some R' ∧ Committed S' R') : Durable ⟨T', S'⟩ := by
  obtain ⟨R', hR', hcomm⟩ := hcomm
  simp only [callbackAppend, hR', Option.map_some, Option.some.injEq] at happ
  subst happ
  exact ⟨hcomm, hS'.symm⟩

theorem Durable.step {pagelen : ℕ} {K K' : KvldsState} (hK : Durable K) (h : Step pagelen K K') :
    Durable K' := by
  cases h with
  | sync hD hsync hnext happ =>
    rw [hK.nextblk_eq] at hsync
    exact callbackAppend_committed happ rfl ((hK.committed.syncable hD).sync_committed
      hK.committed.wf hsync hnext (UInt64.toNat_lt _).le)
  | gc hfree => exact ⟨hK.committed.frees hfree, hK.nextblk.trans hfree.1.symm⟩
  | restart hD hsync hfit hcrash hnext hlt hlast hscan hL hnum hold =>
    rw [hK.nextblk_eq] at hsync
    exact ⟨hK.committed.restart hD hsync hfit hcrash hnext hlt hlast hscan hL hnum hold, hnext⟩

theorem Reachable.durable {pagelen : ℕ} {K : KvldsState} (h : Reachable pagelen K) : Durable K := by
  induction h with
  | init hsync hnext happ =>
    exact callbackAppend_committed happ rfl (syncable_initRootLeaf.sync_committed emptyStore_wf hsync
      (by simpa [emptyStore] using hnext) (UInt64.toNat_lt _).le)
  | step _ hs ih => exact ih.step hs

/-! ## Garbage collection -/

/-- The FREE of `callback_gc` keeps every page of the committed tree, and every page a dirty
tree built from it refers to. -/
theorem Committed.gc_keeps {S S' : BlockStore Page} {R : Node} (hR : Committed S R)
    (hfree : S.Frees S' R.info.oldestleaf.toNat) :
    Every (fun X => S'.blocks X.info.pagenum.toNat = some X.page) R ∧
      ∀ D, Batch R D → Every (fun X => X.info.state ≠ .dirty →
        S'.blocks X.info.pagenum.toNat = some X.page) D := by
  have hR' := hR.frees hfree
  refine ⟨hR'.settled.imp fun _ hX => hX.stored, fun D hD => ?_⟩
  exact (hR'.syncable hD).settled.imp fun X hX hd => (hX hd).self.stored

/-- `btree_sync` asserts that it serialized `ndirty` pages. -/
theorem btreeSync_length {pagelen : ℕ} {nextblk : UInt64} {D D' : Node} {ps : List Page}
    (h : btreeSync pagelen nextblk D = some (D', ps)) : ps.length = ndirty D := by
  unfold btreeSync at h
  split at h
  · cases h
  · split_ifs at h with hc
    cases h
    exact hc.1

/-- What a sync writes: the pages of the dirty nodes in postorder, numbered from the first unused
block, each after the children it refers to and the root last, with the oldest leaf of every
node the least leaf number below it. -/
theorem Syncable.sync_spec {S : BlockStore Page} {D D' : Node} {ps : List Page} {pagelen : ℕ}
    (hS : Syncable S D) (hwf : S.WF)
    (hsync : btreeSync pagelen (UInt64.ofNat S.nextblk) D = some (D', ps))
    (hfit : S.nextblk + ps.length ≤ 2 ^ 64) :
    ps.length = ndirty D ∧ ps = (dirtyPost D').map Node.page ∧
      NumberedFrom S.nextblk (dirtyPost D') ∧
      (∀ X ∈ subtrees D', X.info.state = .dirty → X ∈ dirtyPost D') ∧
      (∀ X ∈ dirtyPost D', ChildrenBefore X) ∧
      (D'.info.state = .dirty → (dirtyPost D').getLast? = some D') ∧ Every OldestOK D' := by
  have hser := btreeSync_serialized hsync
  have hplaced := hS.placed hser hwf hfit 0
  refine ⟨btreeSync_length hsync, by simpa using hser.pages, by simpa using hser.numbered,
    fun X hX hd => hS.mem_dirtyPost hser hX hd, fun X hX => ?_, fun hd => ?_,
    hplaced.imp fun _ h => h.oldest⟩
  · exact (every_iff_subtrees.mp hplaced X (mem_subtrees_of_mem_dirtyPost hX)).before
  · simp [dirtyPost_of_dirty hd]

/-! ## The first committed tree -/

/-- The root leaf `btree_init` numbers 0 on an empty store, with pages of 512 bytes. -/
def firstRootDirty : Node :=
  .leaf { initRootLeaf.info with
    pagenum := 0
    oldestleaf := 0
    pagesize := some 18 } []

/-- That leaf made clean: the committed tree after `btree_init`. -/
def firstRoot : Node :=
  .leaf { initRootLeaf.info with
    pagenum := 0
    oldestleaf := 0
    oldestncleaf := 0
    pagesize := some 18
    state := .clean } []

/-- The state after `btree_init` on an empty store whose APPEND reports block 1 as the next. -/
def firstState : KvldsState := ⟨⟨firstRoot, 1⟩, emptyStore.append [firstRootDirty.page] 1⟩

theorem reachable_firstState : Reachable 512 firstState :=
  @Reachable.init 512 firstRootDirty [firstRootDirty.page] 1 ⟨firstRoot, 1⟩ rfl (by decide) rfl

/-! ## A run: two batches, a FREE, a crash and a restart -/

/-- The one-byte key `b`. -/
def keyOf (b : UInt8) : KVLDSKey := ⟨[b], by simp⟩

/-- The first batch after `btree_init`: three pairs over two new leaves under a new root. -/
def batchOne : Node :=
  .parent { mknodeInfo 1 0 with root := true } [keyOf 2]
    [mkleaf [(keyOf 1, keyOf 1)], mkleaf [(keyOf 2, keyOf 2), (keyOf 3, keyOf 3)]]

/-- What `btree_sync` makes of the first batch from block 1: the leaves at blocks 1 and 2, the
root at block 3. -/
def syncOne : Node × List Page := (btreeSync 512 1 batchOne).getD (batchOne, [])

/-- The first leaf as the first batch commits it. -/
def leafOne : Node :=
  .leaf { mknodeInfo 0 1 with
    pagenum := 1
    oldestleaf := 1
    oldestncleaf := 1
    pagesize := some 14
    state := .clean } [(keyOf 1, keyOf 1)]

/-- The tree the first batch commits: its oldest leaf is block 1. -/
def treeOne : Node :=
  .parent { mknodeInfo 1 0 with
      root := true
      pagenum := 3
      oldestleaf := 1
      oldestncleaf := 1
      pagesize := some 60
      state := .clean } [keyOf 2]
    [leafOne, .leaf { mknodeInfo 0 0 with
      pagenum := 2
      oldestleaf := 2
      oldestncleaf := 2
      pagesize := some 18
      state := .clean } [(keyOf 2, keyOf 2), (keyOf 3, keyOf 3)]]

/-- The store after the first batch, which reports block 4 as the next. -/
def storeOne : BlockStore Page := firstState.store.append syncOne.2 4

/-- The store after the FREE of `callback_gc` below the oldest leaf, block 1, has taken effect. -/
def storeTwo : BlockStore Page := storeOne.freeBelow 1

/-- The second batch: the first leaf kept, the second rewritten and a third added. -/
def batchTwo : Node :=
  .parent { mknodeInfo 1 0 with root := true } [keyOf 2, keyOf 3]
    [leafOne, mkleaf [(keyOf 2, keyOf 4)], mkleaf [(keyOf 3, keyOf 3)]]

/-- What `btree_sync` makes of the second batch from block 4: the new leaves at blocks 4 and 5,
the root at block 6. -/
def syncTwo : Node × List Page := (btreeSync 512 4 batchTwo).getD (batchTwo, [])

/-- What `btree_sync` makes of the second batch from block 6, after the restart. -/
def syncThree : Node × List Page := (btreeSync 512 6 batchTwo).getD (batchTwo, [])

/-- The store after a crash during the APPEND of the second batch that wrote blocks 4 and 5
but not the root at block 6; it reports block 6 as the next. -/
def storeThree : BlockStore Page := storeTwo.append (syncTwo.2.take 2) 6

/-- The state after the first batch and the FREE. -/
def stateTwo : KvldsState := ⟨⟨treeOne, 4⟩, storeTwo⟩

/-- The state after the crash and `btree_init`: the first batch's tree, paged in again. -/
def stateThree : KvldsState := ⟨⟨treeOne, 6⟩, storeThree⟩

theorem batch_firstRoot_batchOne : Batch firstRoot batchOne where
  shared := by simp [batchOne, mkleaf, mknodeInfo]
  root := rfl
  nonroot := by simp [NonRootChildren, batchOne, Node.children, mkleaf, mknodeInfo]
  shape := by simp [Shape, ShapeAt, batchOne, mkleaf, mknodeInfo]

theorem batch_treeOne_batchTwo : Batch treeOne batchTwo where
  shared := by simp [batchTwo, treeOne, leafOne, mkleaf, mknodeInfo]
  root := rfl
  nonroot := by simp [NonRootChildren, batchTwo, Node.children, leafOne, mkleaf, mknodeInfo]
  shape := by simp [Shape, ShapeAt, batchTwo, leafOne, mkleaf, mknodeInfo]

theorem reachable_stateTwo : Reachable 512 stateTwo :=
  .step (.step reachable_firstState
    (@Step.sync 512 firstState batchOne syncOne.1 syncOne.2 4 _
      batch_firstRoot_batchOne rfl (by decide) rfl))
    (.gc (BlockStore.frees_freeBelow storeOne 1))

theorem storeTwo_wf : storeTwo.WF := reachable_stateTwo.durable.committed.wf

theorem crashedAppend_storeThree : storeTwo.CrashedAppend syncTwo.2 storeThree :=
  storeTwo_wf.crashedAppend_take (by decide) 6

theorem storeThree_wf : storeThree.WF :=
  storeTwo_wf.append (by decide)

/-- The store reports block 5 as its last. -/
theorem storeThree_above : ∀ b, (5 : UInt64).toNat < b → storeThree.blocks b = none :=
  fun b hb => storeThree_wf b (by
    have : (5 : UInt64).toNat = 5 := rfl
    show 6 ≤ b
    omega)

theorem reachable_stateThree : Reachable 512 stateThree :=
  .step reachable_stateTwo
    (@Step.restart 512 _ batchTwo syncTwo.1 _ syncTwo.2 _ _ 5 3 treeOne.page
      batch_treeOne_batchTwo rfl (by decide) crashedAppend_storeThree
      rfl (by decide) storeThree_above (by decide)
      (Every.of_decide (by decide)) rfl (by decide))

/-! ## Write ordering and garbage collection -/

/-- In every reachable state, a sync of a dirty tree built from the committed tree writes the
dirty nodes in postorder at the blocks from the first unused one on, each after the children it
refers to and the root last, with the oldest leaf of every node the least leaf number below it;
and every node of the committed tree lies at or above the root's oldest leaf, so the FREE of
`callback_gc` keeps every page of the committed tree and every page the dirty tree refers to. -/
theorem btreeSync_postorder_gcSafe {pagelen : ℕ} {K : KvldsState} (hK : Reachable pagelen K)
    {D D' : Node} {ps : List Page} (hD : Batch K.tree.rootShadow D)
    (hsync : btreeSync pagelen K.tree.nextblk D = some (D', ps))
    (hfit : K.store.nextblk + ps.length ≤ 2 ^ 64) :
    (ps.length = ndirty D ∧ ps = (dirtyPost D').map Node.page ∧
      NumberedFrom K.store.nextblk (dirtyPost D') ∧
      (∀ X ∈ subtrees D', X.info.state = .dirty → X ∈ dirtyPost D') ∧
      (∀ X ∈ dirtyPost D', ChildrenBefore X) ∧
      (D'.info.state = .dirty → (dirtyPost D').getLast? = some D') ∧ Every OldestOK D') ∧
    (∀ X ∈ subtrees K.tree.rootShadow, (callbackGc K.tree).toNat ≤ X.info.pagenum.toNat) ∧
    ∀ S', K.store.Frees S' (callbackGc K.tree).toNat →
      Every (fun X => S'.blocks X.info.pagenum.toNat = some X.page) K.tree.rootShadow ∧
      Every (fun X => X.info.state ≠ .dirty → S'.blocks X.info.pagenum.toNat = some X.page) D := by
  have hdur := hK.durable
  rw [hdur.nextblk_eq] at hsync
  refine ⟨(hdur.committed.syncable hD).sync_spec hdur.committed.wf hsync hfit,
    fun X hX => hdur.committed.oldestleaf_le hX, fun S' hfree => ?_⟩
  obtain ⟨hR, hbatch⟩ := hdur.committed.gc_keeps hfree
  exact ⟨hR, hbatch D hD⟩

/-- After the first batch, a FREE, a crash in the APPEND of the second batch and a restart,
the second batch synced again writes three pages from block 6. -/
theorem btreeSync_postorder_gcSafe_restarted :
    Reachable 512 stateThree ∧ Batch stateThree.tree.rootShadow batchTwo ∧
      btreeSync 512 stateThree.tree.nextblk batchTwo = some (syncThree.1, syncThree.2) ∧
      stateThree.store.nextblk + syncThree.2.length ≤ 2 ^ 64 ∧
      ((syncThree.2.length = ndirty batchTwo ∧ syncThree.2 = (dirtyPost syncThree.1).map Node.page ∧
        NumberedFrom stateThree.store.nextblk (dirtyPost syncThree.1) ∧
        (∀ X ∈ subtrees syncThree.1, X.info.state = .dirty → X ∈ dirtyPost syncThree.1) ∧
        (∀ X ∈ dirtyPost syncThree.1, ChildrenBefore X) ∧
        (syncThree.1.info.state = .dirty → (dirtyPost syncThree.1).getLast? = some syncThree.1) ∧
        Every OldestOK syncThree.1) ∧
      (∀ X ∈ subtrees stateThree.tree.rootShadow,
        (callbackGc stateThree.tree).toNat ≤ X.info.pagenum.toNat) ∧
      ∀ S', stateThree.store.Frees S' (callbackGc stateThree.tree).toNat →
        Every (fun X => S'.blocks X.info.pagenum.toNat = some X.page) stateThree.tree.rootShadow ∧
        Every (fun X => X.info.state ≠ .dirty → S'.blocks X.info.pagenum.toNat = some X.page)
          batchTwo) := by
  have hsync : btreeSync 512 stateThree.tree.nextblk batchTwo = some (syncThree.1, syncThree.2) :=
    rfl
  have hfit : stateThree.store.nextblk + syncThree.2.length ≤ 2 ^ 64 := by decide
  exact ⟨reachable_stateThree, batch_treeOne_batchTwo, hsync, hfit,
    btreeSync_postorder_gcSafe reachable_stateThree batch_treeOne_batchTwo hsync hfit⟩

/-! ## Recovery -/

/-- After a crash during the APPEND of any sync from a reachable state, the root scan of
`btree_init` from the last block the store reports finds the root of the last batch whose APPEND
wrote its last block: the synced tree if the crash came after that block, the committed tree
otherwise; and every page of that tree is present. -/
theorem btreeInitScan_lastCommit {pagelen : ℕ} {K : KvldsState} (hK : Reachable pagelen K)
    {D D' : Node} {ps : List Page} (hD : Batch K.tree.rootShadow D)
    (hsync : btreeSync pagelen K.tree.nextblk D = some (D', ps))
    (hfit : K.store.nextblk + ps.length ≤ 2 ^ 64) {S' : BlockStore Page}
    (hcrash : K.store.CrashedAppend ps S') {nextblk lastblk : UInt64}
    (hlast : ∀ b, lastblk.toNat < b → S'.blocks b = none) (hnext : lastblk < nextblk) :
    ∃ R, btreeInitScan (fun b => S'.blocks b.toNat) nextblk lastblk = some (R.info.pagenum, R.page) ∧
      Every (fun X => S'.blocks X.info.pagenum.toNat = some X.page) R ∧
      ((ps ≠ [] ∧ S'.blocks (K.store.nextblk + ps.length - 1) ≠ none ∧ makeclean D' = some R) ∨
        ((ps = [] ∨ S'.blocks (K.store.nextblk + ps.length - 1) = none) ∧
          R = K.tree.rootShadow)) := by
  have hdur := hK.durable
  rw [hdur.nextblk_eq] at hsync
  obtain ⟨R, S₀, hR, hstored, hrl, hcase⟩ := hdur.committed.crashed hD hsync hfit hcrash
  exact ⟨R, btreeInitScan_of_rootLast hstored.self hR.root hrl hlast hnext, hstored, hcase⟩

/-- After the first batch and a FREE, a crash in the APPEND of the second batch writes blocks 4
and 5 of its three: the scan from block 5 finds the first batch's root at block 3. -/
theorem btreeInitScan_lastCommit_cut :
    Reachable 512 stateTwo ∧ Batch stateTwo.tree.rootShadow batchTwo ∧
      btreeSync 512 stateTwo.tree.nextblk batchTwo = some (syncTwo.1, syncTwo.2) ∧
      stateTwo.store.nextblk + syncTwo.2.length ≤ 2 ^ 64 ∧
      stateTwo.store.CrashedAppend syncTwo.2 storeThree ∧
      (∀ b, (5 : UInt64).toNat < b → storeThree.blocks b = none) ∧ (5 : UInt64) < 6 ∧
      ∃ R, btreeInitScan (fun b => storeThree.blocks b.toNat) 6 5 =
          some (R.info.pagenum, R.page) ∧
        Every (fun X => storeThree.blocks X.info.pagenum.toNat = some X.page) R ∧
        ((syncTwo.2 ≠ [] ∧
            storeThree.blocks (stateTwo.store.nextblk + syncTwo.2.length - 1) ≠ none ∧
            makeclean syncTwo.1 = some R) ∨
          ((syncTwo.2 = [] ∨
              storeThree.blocks (stateTwo.store.nextblk + syncTwo.2.length - 1) = none) ∧
            R = stateTwo.tree.rootShadow)) := by
  have hsync : btreeSync 512 stateTwo.tree.nextblk batchTwo = some (syncTwo.1, syncTwo.2) := rfl
  have hfit : stateTwo.store.nextblk + syncTwo.2.length ≤ 2 ^ 64 := by decide
  exact ⟨reachable_stateTwo, batch_treeOne_batchTwo, hsync, hfit, crashedAppend_storeThree,
    storeThree_above, by decide, btreeInitScan_lastCommit reachable_stateTwo
      batch_treeOne_batchTwo hsync hfit crashedAppend_storeThree storeThree_above (by decide)⟩

end Kivaloo.Kvlds
