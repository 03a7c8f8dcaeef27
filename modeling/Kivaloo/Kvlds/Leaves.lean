import Kivaloo.Lib.Buckets
import Kivaloo.Kvlds.Batch
import Kivaloo.Kvlds.RangeSpec

/-!
# The leaves of a B+Tree as buckets

Read from left to right, a well-shaped B+Tree is its leaves with one separator between each two
of them (`Shape.reading_eq`), so it is ordered exactly when its leaves are buckets in order
between its separators (`Shape.ordered_iff`), and its pairs are those of its leaves one after
the other (`inorder_eq_flatten`).

`btree_find_leaf` routes a key by `btree_find_child` at each parent, which compares from the
prefix length `mlen_t` the parent's range shares.  While every node's `mlen_t` is at most the
prefix length of the range it is responsible for (`MlenOK`, what `btree_mlen` establishes), the
descent ends in the bucket the key belongs in, and the key shares the leaf's `mlen_t` with the
leaf's keys (`routes`).
-/

namespace Kivaloo.Kvlds

open Kivaloo.Lib Node KVLDSKey

/-! ## Leaves and separators -/

mutual

/-- The separators of a subtree, left to right. -/
def seps : Node → List KVLDSKey
  | .leaf _ _ => []
  | .parent _ ks cs => sepsList ks cs

/-- The separators of the children `cs` of a parent with their separators `ks` between them. -/
def sepsList : List KVLDSKey → List Node → List KVLDSKey
  | _, [] => []
  | ks, c :: cs => seps c ++ ks.head?.toList ++ sepsList ks.tail cs

end

/-- The pairs of the leaves of a subtree, leaf by leaf. -/
def leafBuckets (N : Node) : List (List (KVLDSKey × KVLDSKey)) := (leaves N).map leafPairs

@[simp] theorem leaves_leaf (m ps) : leaves (.leaf m ps) = [.leaf m ps] := by simp [leaves]
@[simp] theorem leaves_parent (m ks cs) : leaves (.parent m ks cs) = leavesList cs := by
  simp [leaves]
@[simp] theorem leavesList_nil : leavesList [] = [] := by simp [leavesList]
@[simp] theorem leavesList_cons (c : Node) (cs : List Node) :
    leavesList (c :: cs) = leaves c ++ leavesList cs := by simp [leavesList]

@[simp] theorem seps_leaf (m ps) : seps (.leaf m ps) = [] := by simp [seps]
@[simp] theorem seps_parent (m ks cs) : seps (.parent m ks cs) = sepsList ks cs := by simp [seps]
@[simp] theorem sepsList_nil (ks : List KVLDSKey) : sepsList ks [] = [] := by simp [sepsList]
@[simp] theorem sepsList_cons_cons (k : KVLDSKey) (ks : List KVLDSKey) (c : Node) (cs : List Node) :
    sepsList (k :: ks) (c :: cs) = seps c ++ k :: sepsList ks cs := by simp [sepsList]
@[simp] theorem sepsList_nil_cons (c : Node) (cs : List Node) :
    sepsList [] (c :: cs) = seps c ++ sepsList [] cs := by simp [sepsList]

/-- The pairs of a subtree are those of its leaves, one leaf after the other. -/
theorem inorder_eq_flatten (N : Node) : N.inorder = (leafBuckets N).flatten := by
  induction N using Node.ind with
  | leaf m ps => simp [leafBuckets, leafPairs]
  | parent m ks cs ih =>
    simp only [inorder_parent, leafBuckets, leaves_parent]
    induction cs with
    | nil => simp
    | cons c cs ihcs =>
      rw [List.map_cons, List.flatten_cons, ih c List.mem_cons_self,
        ihcs fun d hd => ih d (List.mem_cons_of_mem _ hd)]
      simp [leafBuckets]

theorem length_leavesList {ks : List KVLDSKey} {cs : List Node} (hlen : cs.length = ks.length + 1)
    (h : ∀ c ∈ cs, (leaves c).length = (seps c).length + 1) :
    (leavesList cs).length = (sepsList ks cs).length + 1 := by
  induction cs generalizing ks with
  | nil => simp at hlen
  | cons c cs ih =>
    have hc := h c List.mem_cons_self
    obtain _ | ⟨k, ks⟩ := ks
    · obtain rfl : cs = [] := by simpa using hlen
      simp [hc]
    · have hcs := ih (by simpa using hlen) fun d hd => h d (List.mem_cons_of_mem _ hd)
      simp only [leavesList_cons, sepsList_cons_cons, List.length_append, List.length_cons] at hcs ⊢
      omega

/-- A well-shaped subtree has one leaf more than separators. -/
theorem Shape.length_leaves {N : Node} (h : Shape N) : (leaves N).length = (seps N).length + 1 := by
  induction N using Node.ind with
  | leaf m ps => simp
  | parent m ks cs ih =>
    obtain ⟨hlen, hcs⟩ := shape_parent.mp h
    simpa using length_leavesList hlen fun c hc => ih c hc (hcs c hc).2

theorem length_leafBuckets {N : Node} (h : Shape N) :
    (leafBuckets N).length = (seps N).length + 1 := by
  simp [leafBuckets, h.length_leaves]

theorem readingList_eq_weave {ks : List KVLDSKey} {cs : List Node} (hlen : cs.length = ks.length + 1)
    (h : ∀ c ∈ cs, (leaves c).length = (seps c).length + 1 ∧
      reading c = weave (leafBuckets c) (seps c)) :
    readingList ks cs = weave ((leavesList cs).map leafPairs) (sepsList ks cs) := by
  induction cs generalizing ks with
  | nil => simp at hlen
  | cons c cs ih =>
    obtain ⟨hclen, hc⟩ := h c List.mem_cons_self
    obtain _ | ⟨k, ks⟩ := ks
    · obtain rfl : cs = [] := by simpa using hlen
      simp [hc, leafBuckets]
    · have hcs := ih (by simpa using hlen) fun d hd => h d (List.mem_cons_of_mem _ hd)
      rw [readingList_cons_cons, hc, hcs, leavesList_cons, sepsList_cons_cons, List.map_append,
        weave_append (by simpa [leafBuckets] using hclen)]
      rfl

/-- A well-shaped subtree reads as its leaves with its separators between them. -/
theorem Shape.reading_eq {N : Node} (h : Shape N) : reading N = weave (leafBuckets N) (seps N) := by
  induction N using Node.ind with
  | leaf m ps => simp [leafBuckets, leafPairs, pairItem]
  | parent m ks cs ih =>
    obtain ⟨hlen, hcs⟩ := shape_parent.mp h
    simpa [leafBuckets] using readingList_eq_weave hlen fun c hc =>
      ⟨(hcs c hc).2.length_leaves, ih c hc (hcs c hc).2⟩

/-- A well-shaped subtree is ordered exactly when its leaves are buckets in order between its
separators. -/
theorem Shape.ordered_iff {N : Node} (h : Shape N) :
    Ordered N ↔ Bucketed (leafBuckets N) (seps N) := by
  rw [Ordered, h.reading_eq]
  exact pairwise_weave_iff (length_leafBuckets h)

/-- A separator of a well-shaped subtree is read in it. -/
theorem Shape.sep_mem_reading {N : Node} (h : Shape N) {s : KVLDSKey} (hs : s ∈ seps N) :
    Tok.sep s ∈ reading N := by
  rw [h.reading_eq]
  exact sep_mem_weave (length_leafBuckets h) hs

/-- The keys of a parent are among its separators. -/
theorem keys_sublist_sepsList {ks : List KVLDSKey} {cs : List Node}
    (hlen : cs.length = ks.length + 1) : ks.Sublist (sepsList ks cs) := by
  induction cs generalizing ks with
  | nil => simp at hlen
  | cons c cs ih =>
    obtain _ | ⟨k, ks⟩ := ks
    · exact List.nil_sublist _
    · rw [sepsList_cons_cons]
      exact ((ih (by simpa using hlen)).cons_cons k).trans (List.sublist_append_right _ _)

/-! ## Routing a key to its leaf -/

mutual

/-- The prefix lengths of a tree whose root is responsible for `[lo, hi)`: the `mlen_t` of
every node is at most the prefix length of the range it is responsible for. -/
def MlenOK (lo hi : Option KVLDSKey) : Node → Prop
  | .leaf m _ => m.mlenT ≤ mlenOf lo hi
  | .parent m ks cs => m.mlenT ≤ mlenOf lo hi ∧ MlenOKList lo hi ks cs

/-- `MlenOK` for the children of a parent, child `i` being responsible for the keys from
`ks[i-1]` (or `lo`) below `ks[i]` (or `hi`). -/
def MlenOKList (lo hi : Option KVLDSKey) : List KVLDSKey → List Node → Prop
  | _, [] => True
  | [], c :: _ => MlenOK lo hi c
  | k :: ks, c :: cs => MlenOK lo (some k) c ∧ MlenOKList (some k) hi ks cs

end

theorem mlenOK_leaf {lo hi : Option KVLDSKey} {m ps} :
    MlenOK lo hi (.leaf m ps) ↔ m.mlenT ≤ mlenOf lo hi := by simp [MlenOK]

theorem mlenOK_parent {lo hi : Option KVLDSKey} {m ks cs} :
    MlenOK lo hi (.parent m ks cs) ↔ m.mlenT ≤ mlenOf lo hi ∧ MlenOKList lo hi ks cs := by
  simp [MlenOK]

theorem MlenOK.mlenT_le {lo hi : Option KVLDSKey} {N : Node} (h : MlenOK lo hi N) :
    N.info.mlenT ≤ mlenOf lo hi := by
  cases N with
  | leaf m ps => exact mlenOK_leaf.mp h
  | parent m ks cs => exact (mlenOK_parent.mp h).1

/-- Two keys of a range share the prefix length `btree_mlen` gives the range. -/
theorem sharePrefix_mlenOf {lo hi : Option KVLDSKey} {x y : KVLDSKey} (hx : InRange lo hi x)
    (hy : InRange lo hi y) : SharePrefix (mlenOf lo hi) x y := by
  match lo, hi, hx, hy with
  | some l, some h, ⟨hlx, hxh⟩, ⟨hly, hyh⟩ =>
    have hlh := sharePrefix_mlen l h
    have hx' := sharePrefix_of_between hlh hlx (le_of_lt hxh)
    have hy' := sharePrefix_of_between hlh hly (le_of_lt hyh)
    exact hx'.symm.trans hy'
  | none, _, _, _ => exact sharePrefix_zero x y
  | some _, none, _, _ => exact sharePrefix_zero x y

/-- A key shares the `mlen_t` of a node with every key read in the node, when all lie in the
node's range. -/
theorem MlenOK.sharePrefix {lo hi : Option KVLDSKey} {N : Node} (h : MlenOK lo hi N)
    {k x : KVLDSKey} (hk : InRange lo hi k) (hx : InRange lo hi x) :
    SharePrefix N.info.mlenT k x :=
  (sharePrefix_mlenOf hk hx).mono h.mlenT_le

/-- `findleafIndex` routes the key `k` in `N`: to the bucket of `k`, whose leaf's keys share the
leaf's `mlen_t` with `k`. -/
def Routes (k : KVLDSKey) (N : Node) : Prop :=
  findleafIndex k N = bucketOf (seps N) k ∧
    ∀ L ∈ (leaves N)[findleafIndex k N]?, ∀ p ∈ L.leafPairs, SharePrefix L.info.mlenT k p.1

/-- What routing in a subtree needs: the subtree well-shaped and ordered, responsible for a
range `[lo, hi)` that holds what is read in it and the key, with its prefix lengths within
that range. -/
structure RouteHyp (k : KVLDSKey) (lo hi : Option KVLDSKey) (N : Node) : Prop where
  shape : Shape N
  ordered : Ordered N
  mlen : MlenOK lo hi N
  inRange : ∀ t ∈ reading N, InRange lo hi t.label
  key : InRange lo hi k

/-- Routing through the children of a parent, from child `i`, the child `btree_find_child`
chose: the separators before it lie at or below the key, the others above it. -/
theorem routesList {k : KVLDSKey} :
    ∀ {cs : List Node} {ks : List KVLDSKey} {lo hi : Option KVLDSKey} {i : ℕ},
      cs.length = ks.length + 1 → (∀ c ∈ cs, Shape c) → (readingList ks cs).Pairwise Tok.Before →
      MlenOKList lo hi ks cs → (∀ t ∈ readingList ks cs, InRange lo hi t.label) →
      InRange lo hi k → i ≤ ks.length → (∀ j (hj : j < ks.length), j < i → ks[j] ≤ k) →
      (∀ j (hj : j < ks.length), i ≤ j → k < ks[j]) →
      (∀ c ∈ cs, ∀ lo hi, RouteHyp k lo hi c → Routes k c) →
      findleafIndexChild k cs i = bucketOf (sepsList ks cs) k ∧
        ∀ L ∈ (leavesList cs)[findleafIndexChild k cs i]?, ∀ p ∈ L.leafPairs,
          SharePrefix L.info.mlenT k p.1
  | [], _, _, _, _, hlen, _, _, _, _, _, _, _, _, _ => by simp at hlen
  | [c], [], lo, hi, i, _, hshape, hord, hmlen, hin, hk, hile, _, _, ih => by
    -- the only child
    obtain rfl : i = 0 := by simpa using hile
    have hread : readingList [] [c] = reading c := by simp
    rw [hread] at hord hin
    have hc := ih c List.mem_cons_self lo hi
      ⟨hshape c List.mem_cons_self, hord, by simpa [MlenOKList] using hmlen, hin, hk⟩
    simpa [Routes, findleafIndexChild] using hc
  | _ :: _ :: _, [], _, _, _, hlen, _, _, _, _, _, _, _, _, _ => by simp at hlen
  | c :: cs, k₀ :: ks, lo, hi, i, hlen, hshape, hord, hmlen, hin, hk, hile, hbelow, habove, ih => by
    have hsc := hshape c List.mem_cons_self
    simp only [MlenOKList] at hmlen
    rw [readingList_cons_cons] at hord hin
    obtain ⟨hordc, hordr, hcross⟩ := List.pairwise_append.mp hord
    obtain ⟨hafter, hordr⟩ := List.pairwise_cons.mp hordr
    -- what is read in `c` lies below `k₀`, what is read after `k₀` at or above it
    have hcbelow : ∀ t ∈ reading c, t.label < k₀ := fun t ht =>
      (hcross t ht _ List.mem_cons_self).label_lt
    have hrabove : ∀ t ∈ readingList ks cs, k₀ ≤ t.label := fun t ht => (hafter t ht).le_label
    have hinc : ∀ t ∈ reading c, InRange lo (some k₀) t.label := fun t ht =>
      ⟨(hin t (List.mem_append_left _ ht)).1, by simpa using hcbelow t ht⟩
    have hinr : ∀ t ∈ readingList ks cs, InRange (some k₀) hi t.label := fun t ht =>
      ⟨by simpa using hrabove t ht, (hin t (by simp [ht])).2⟩
    have hsepsc : ∀ s ∈ seps c, s < k₀ := fun s hs => by
      simpa using hcbelow _ (hsc.sep_mem_reading hs)
    have hsepsr : ∀ s ∈ sepsList ks cs, k₀ < s := fun s hs => by
      have hsr : Tok.sep s ∈ readingList ks cs := by
        have hlen' : cs.length = ks.length + 1 := by simpa using hlen
        rw [readingList_eq_weave hlen' fun d hd =>
          ⟨(hshape d (List.mem_cons_of_mem _ hd)).length_leaves,
            (hshape d (List.mem_cons_of_mem _ hd)).reading_eq⟩]
        exact sep_mem_weave (by simpa using length_leavesList hlen' fun d hd =>
          (hshape d (List.mem_cons_of_mem _ hd)).length_leaves) hs
      simpa using hafter _ hsr
    have hlenc := hsc.length_leaves
    -- the separators after `k₀` against the key
    have hbelow' : ∀ j (hj : j < ks.length), j + 1 < i → ks[j] ≤ k := fun j hj hji => by
      have := hbelow (j + 1) (by simpa using hj) hji
      rwa [List.getElem_cons_succ] at this
    have habove' : ∀ j (hj : j < ks.length), i ≤ j + 1 → k < ks[j] := fun j hj hij => by
      have := habove (j + 1) (by simpa using hj) hij
      rwa [List.getElem_cons_succ] at this
    cases i with
    | zero =>
      -- the key lies below `k₀`: it is routed into `c`
      have hkk₀ : k < k₀ := by
        have := habove 0 (by simp) le_rfl
        rwa [List.getElem_cons_zero] at this
      obtain ⟨hidx, hpre⟩ := ih c List.mem_cons_self lo (some k₀)
        ⟨hsc, hordc, hmlen.1, hinc, hk.1, by simpa using hkk₀⟩
      have hlt : findleafIndex k c < (leaves c).length := by
        have := bucketOf_le_length (seps c) k
        omega
      have hzero : bucketOf (k₀ :: sepsList ks cs) k = 0 := by
        refine bucketOf_eq_zero_iff.mpr fun s hs => ?_
        rcases List.mem_cons.mp hs with rfl | hs
        · exact hkk₀
        · exact hkk₀.trans (hsepsr s hs)
      refine ⟨?_, ?_⟩
      · rw [findleafIndexChild, hidx, sepsList_cons_cons, bucketOf_append, hzero, Nat.add_zero]
      · rw [findleafIndexChild, leavesList_cons, List.getElem?_append_left hlt]
        exact hpre
    | succ i =>
      -- the key lies at or above `k₀`: it is routed past `c`
      have hk₀k : k₀ ≤ k := by
        have := hbelow 0 (by simp) (Nat.succ_pos i)
        rwa [List.getElem_cons_zero] at this
      obtain ⟨hidx, hpre⟩ := @routesList k cs ks (some k₀) hi i (by simpa using hlen)
        (fun d hd => hshape d (List.mem_cons_of_mem _ hd)) hordr hmlen.2 hinr
        ⟨by simpa using hk₀k, hk.2⟩ (by simpa using hile)
        (fun j hj hji => hbelow' j hj (by omega)) (fun j hj hij => habove' j hj (by omega))
        (fun d hd => ih d (List.mem_cons_of_mem _ hd))
      refine ⟨?_, ?_⟩
      · rw [findleafIndexChild, hidx, sepsList_cons_cons, bucketOf_append,
          bucketOf_eq_length fun s hs => (hsepsc s hs).le.trans hk₀k, bucketOf_cons, if_pos hk₀k]
        omega
      · rw [findleafIndexChild, leavesList_cons, List.getElem?_append_right (by omega)]
        simpa using hpre

/-- Under `RouteHyp`, `btree_find_leaf` routes the key to its bucket. -/
theorem routes {k : KVLDSKey} : ∀ {N : Node} {lo hi : Option KVLDSKey}, RouteHyp k lo hi N →
    Routes k N := by
  intro N
  induction N using Node.ind with
  | leaf m ps =>
    intro lo hi h
    refine ⟨by simp [findleafIndex, bucketOf], fun L hL p hp => ?_⟩
    obtain rfl : L = .leaf m ps := by simpa [findleafIndex] using hL.symm
    have hmem : pairItem p ∈ reading (.leaf m ps) := by
      rw [reading_leaf]
      exact List.mem_map_of_mem hp
    have hx : InRange lo hi p.1 := h.inRange _ hmem
    simpa using h.mlen.sharePrefix h.key hx
  | parent m ks cs ih =>
    intro lo hi h
    obtain ⟨hlen, hcs⟩ := shape_parent.mp h.shape
    have hmlen := mlenOK_parent.mp h.mlen
    -- the separators are sorted and share the parent's `mlen_t` with the key
    have hsorted : ks.Pairwise (· < ·) :=
      ((h.shape.ordered_iff.mp h.ordered).seps).sublist (keys_sublist_sepsList hlen)
    have hp : ∀ x ∈ ks, SharePrefix m.mlenT k x := fun x hx => by
      have hsep := h.shape.sep_mem_reading (by simpa using (keys_sublist_sepsList hlen).subset hx)
      simpa using h.mlen.sharePrefix h.key (by simpa using h.inRange _ hsep)
    obtain ⟨hle, hbelow, habove⟩ := @btreeFindChild_spec m ks cs k hsorted hp
    have hread := h.inRange
    have hord := h.ordered
    simp only [reading_parent] at hread
    simp only [Ordered, reading_parent] at hord
    simpa [Routes, findleafIndex] using routesList hlen (fun c hc => (hcs c hc).2) hord hmlen.2
      hread h.key hle hbelow habove fun c hc lo' hi' hc' => ih c hc hc'

/-- In a tree responsible for the whole key space, every key is routed to its bucket. -/
theorem routes_root {R : Node} (hR : SearchTree R) (hm : MlenOK none none R) (k : KVLDSKey) :
    Routes k R :=
  routes ⟨hR.shape, hR.ordered, hm, fun _ _ => ⟨trivial, trivial⟩, ⟨trivial, trivial⟩⟩

end Kivaloo.Kvlds
