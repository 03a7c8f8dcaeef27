import Kivaloo.Kvlds.MergeSpec
import Kivaloo.Kvlds.SplitParts

/-!
# `btree_balance` keeps the search-tree invariant

The split phase and each merge pass keep the shape conditions and the absence of marks and
rewrite the reading of the tree; so `btree_balance` keeps the tree ordered and its pairs
unchanged.  The merge passes always end (each pass that asks for another merges nodes away)
and assert nothing; only the split phase can stop at an assertion, and it does: `splitroot`
asserts that the tree stays below height 64, which an oversized root at height 63 breaks.  When
the nodes that are not dirty fit in a page, that is the only assertion that can fail
(`splittree_eq_none_iff`).
-/

namespace Kivaloo.Kvlds

open Kivaloo.Lib Node

section Loop

variable {pagelen : ℕ}

/-- The merge passes and `deroot` keep the shape and the absence of marks and rewrite the
reading. -/
theorem balanceLoop_spec :
    ∀ (fuel : ℕ) (R : Node) (n : ℕ) {R' : Node} {n' : ℕ}, Shape R → NoMarks R →
      balanceLoop pagelen fuel R n = some (R', n') →
      Shape R' ∧ NoMarks R' ∧ Rewrite (reading R) (reading R')
  | 0, _, _, _, _, _, _, h => by simp [balanceLoop] at h
  | fuel + 1, R, n, R', n', hs, hm, h => by
    obtain ⟨hs₁, hm₁, hr₁, -⟩ := mergePass_spec (pagelen * 2 / 3) hs hm n
    simp only [balanceLoop] at h
    split_ifs at h
    · obtain ⟨hs', hm', hr'⟩ := balanceLoop_spec fuel _ _ hs₁ hm₁ h
      exact ⟨hs', hm', hr₁.trans hr'⟩
    · simp only [Option.some.injEq] at h
      obtain ⟨hs', hm', hr'⟩ := derootFrom_spec _ hs₁ hm₁ false
        (domergenode (planmergenode (pagelen * 2 / 3) R) n).2
      rw [deroot] at h
      rw [h] at hs' hm' hr'
      exact ⟨hs', hm', hr'.symm ▸ hr₁⟩

/-- The merge passes end: a pass that asks for another has merged nodes away, so more fuel
than nodes is enough. -/
theorem balanceLoop_isSome :
    ∀ (fuel : ℕ) (R : Node) (n : ℕ), Shape R → NoMarks R → R.count < fuel →
      (balanceLoop pagelen fuel R n).isSome
  | 0, _, _, _, _, hfuel => by simp at hfuel
  | fuel + 1, R, n, hs, hm, hfuel => by
    obtain ⟨hs₁, hm₁, -, hcount⟩ := mergePass_spec (pagelen * 2 / 3) hs hm n
    simp only [balanceLoop]
    split_ifs with hneed
    · -- another pass: the tree has lost a node
      rw [hneed, Bool.toNat_true] at hcount
      exact balanceLoop_isSome fuel _ _ hs₁ hm₁ (by omega)
    · rfl

end Loop

/-! ## Where the split phase stops

`splitchildren` asserts that its count grew and that it matches what it built, and
`btree_node_split` that the node it splits is dirty; `splitroot` asserts the height bound and
that the split made the parts it counted.  On a well-shaped tree whose nodes that are not dirty
fit in a page, only the height bound can fail. -/

/-- Every node of the subtree that is not dirty fits in a page. -/
def CleanFits (pagelen : ℕ) (N : Node) : Prop :=
  Every (fun X => X.info.state ≠ .dirty → serializeSize X ≤ pagelen) N

/-- One round of the loop of `splittree`: the root is oversized and `splitroot` puts a new root
above its parts. -/
def SplitrootRound (pagelen : ℕ) (p q : Node × ℕ) : Prop :=
  pagelen < serializeSize p.1 ∧ splitroot pagelen p.1.cacheSize p.2 = some q

section SplitFails

variable {pagelen : ℕ}

theorem one_le_btreeNodeSplitNparts (N : Node) : 1 ≤ btreeNodeSplitNparts pagelen N := by
  rw [← btreeNodeSplit_length, btreeNodeSplit_length_seps]
  omega

theorem one_le_childParts (c : Node) : 1 ≤ childParts pagelen c := by
  unfold childParts
  split_ifs
  · exact one_le_btreeNodeSplitNparts c
  · exact le_rfl

/-- The building loop of `splitchildren` fails only at an oversized child that is not dirty. -/
theorem splitBuild_isSome :
    ∀ (ks : List KVLDSKey) (cs : List Node),
      (∀ c ∈ cs, oversized pagelen c = true → c.info.state = .dirty) →
      (splitBuild pagelen ks cs).isSome
  | _, [], _ => rfl
  | ks, c :: cs, hdirty => by
    obtain ⟨⟨ks₁, cs₁, n₁⟩, hrec⟩ := Option.isSome_iff_exists.mp
      (splitBuild_isSome (ks.drop 1) cs fun d hd => hdirty d (List.mem_cons_of_mem _ hd))
    rw [splitBuild, hrec]
    split_ifs with hover hstate
    · rfl
    · exact absurd (hdirty c List.mem_cons_self hover) hstate
    · rfl

/-- The part of `splitchildren` after the recursion fails only where the building loop does:
the count is at least the old one since every child counts one part or more, and it is what the
loop builds. -/
theorem splitchildrenBody_isSome (m : NodeInfo) {ks : List KVLDSKey} {cs : List Node}
    (hlen : cs.length = ks.length + 1)
    (hdirty : ∀ c ∈ cs, oversized pagelen c = true → c.info.state = .dirty) (n : ℕ) :
    (splitchildrenBody pagelen m ks cs n).isSome := by
  have hsum : ks.length + 1 ≤ ((cs.map Node.cacheSize).map (childParts pagelen)).sum := by
    have hone := List.length_le_sum_of_one_le ((cs.map Node.cacheSize).map (childParts pagelen))
      (by simp only [List.mem_map]; rintro _ ⟨c, -, rfl⟩; exact one_le_childParts c)
    simpa [hlen] using hone
  have hdirty' : ∀ c ∈ cs.map Node.cacheSize, oversized pagelen c = true → c.info.state = .dirty := by
    simp only [List.mem_map]
    rintro _ ⟨c, hc, rfl⟩ hover
    simpa using hdirty c hc (by simpa [oversized] using hover)
  obtain ⟨⟨ks', cs', k⟩, hbuild⟩ := Option.isSome_iff_exists.mp (splitBuild_isSome ks _ hdirty')
  have hcount := (splitchildren_newNkeys (by simpa using hlen) hbuild).2
  simp only [splitchildrenBody]
  split_ifs with heq hlt
  · rfl
  · omega
  · rw [hbuild]
    simp only [hcount, ↓reduceIte, Option.isSome_some]

theorem splitchildrenBody_info {m : NodeInfo} {ks : List KVLDSKey} {cs : List Node} {n n' : ℕ}
    {N' : Node} (h : splitchildrenBody pagelen m ks cs n = some (N', n')) : N'.info = m := by
  simp only [splitchildrenBody] at h
  split at h
  · cases h
    rfl
  · split at h
    · cases h
    · split at h
      · cases h
      · split at h
        · cases h
          rfl
        · cases h

/-- `splitchildren` keeps the fields of the node it is called on. -/
theorem splitchildren_info {N N' : Node} {n n' : ℕ} (h : splitchildren pagelen N n = some (N', n')) :
    N'.info = N.info := by
  cases N with
  | leaf m ps =>
    simp only [splitchildren, Option.some.injEq, Prod.mk.injEq] at h
    rw [← h.1]
  | parent m ks cs =>
    simp only [splitchildren] at h
    split_ifs at h
    · split at h
      · cases h
      · exact splitchildrenBody_info h
    · simp only [Option.some.injEq, Prod.mk.injEq] at h
      rw [← h.1]

/-- `splitchildren` leaves a node that is not dirty as it is. -/
theorem splitchildren_of_ne_dirty {N : Node} (hN : N.info.state ≠ .dirty) (n : ℕ) :
    splitchildren pagelen N n = some (N, n) := by
  cases N with
  | leaf m ps => rfl
  | parent m ks cs =>
    have hm : m.state ≠ .dirty := hN
    rw [splitchildren, if_neg hm]

/-- What `splitchildren` makes of a node is dirty or fits in a page when the node is dirty or
fits. -/
theorem splitchildren_dirty_or_fits {N N' : Node} {n n' : ℕ}
    (hN : N.info.state = .dirty ∨ serializeSize N ≤ pagelen)
    (h : splitchildren pagelen N n = some (N', n')) :
    N'.info.state = .dirty ∨ serializeSize N' ≤ pagelen := by
  by_cases hdirty : N.info.state = .dirty
  · exact .inl (splitchildren_info h ▸ hdirty)
  · rw [splitchildren_of_ne_dirty hdirty, Option.some.injEq, Prod.mk.injEq] at h
    rw [← h.1]
    exact hN

theorem splitchildrenList_isSome {cs : List Node}
    (ih : ∀ c ∈ cs, ∀ n, (splitchildren pagelen c n).isSome) :
    ∀ n, (splitchildrenList pagelen cs n).isSome := by
  induction cs with
  | nil => intro n; rfl
  | cons c cs ihcs =>
    intro n
    obtain ⟨⟨c', n₁⟩, hc⟩ := Option.isSome_iff_exists.mp (ih c List.mem_cons_self n)
    obtain ⟨⟨cs', n₂⟩, hcs⟩ := Option.isSome_iff_exists.mp
      (ihcs (fun d hd => ih d (List.mem_cons_of_mem _ hd)) n₁)
    simp [splitchildrenList, hc, hcs]

/-- `splitchildren` succeeds on a well-shaped subtree whose nodes that are not dirty fit in a
page. -/
theorem splitchildren_isSome (N : Node) :
    Shape N → CleanFits pagelen N → ∀ n, (splitchildren pagelen N n).isSome := by
  induction N using Node.ind with
  | leaf m ps => intro _ _ n; rfl
  | parent m ks cs ih =>
    intro hN hfit n
    obtain ⟨hlen, hcs⟩ := shape_parent.mp hN
    have hfits : ∀ c ∈ cs, CleanFits pagelen c := fun c hc => (every_parent.mp hfit).2 c hc
    simp only [splitchildren]
    split_ifs with hdirty
    · obtain ⟨⟨cs₁, n₁⟩, hlist⟩ := Option.isSome_iff_exists.mp
        (splitchildrenList_isSome (fun c hc => ih c hc (hcs c hc).2 (hfits c hc)) n)
      -- each child comes back dirty, or as it was and fitting
      have h₂ : List.Forall₂ (fun c c₁ => c₁.info.state = .dirty ∨ serializeSize c₁ ≤ pagelen)
          cs cs₁ :=
        splitchildrenList_forall₂ (fun c hc => splitchildren_dirty_or_fits
          (or_iff_not_imp_left.mpr (hfits c hc).self)) hlist
      have hdirty₁ : ∀ c₁ ∈ cs₁, oversized pagelen c₁ = true → c₁.info.state = .dirty := by
        intro c₁ hc₁ hover
        obtain ⟨c, -, hfit₁⟩ := forall₂_exists_of_mem_right h₂ hc₁
        exact hfit₁.resolve_right (by simpa [oversized] using hover)
      rw [hlist]
      exact splitchildrenBody_isSome m (h₂.length_eq ▸ hlen) hdirty₁ n₁
    · rfl

theorem splitroot_state {N R : Node} {n n' : ℕ} (h : splitroot pagelen N n = some (R, n')) :
    R.info.state = .dirty := by
  simp only [splitroot] at h
  split_ifs at h
  cases h
  rfl

/-- `splitroot` on a dirty node fails only at `assert(N->height + 1 < 64)`: the split makes the
parts it counts. -/
theorem splitroot_isSome {N : Node} (hdirty : N.info.state = .dirty) (n : ℕ) :
    (splitroot pagelen N n).isSome ↔ N.info.height + 1 < 64 := by
  have hparts : (btreeNodeSplit pagelen N).2.length = btreeNodeSplitNparts pagelen N - 1 + 1 := by
    rw [btreeNodeSplit_length]
    have : 1 ≤ btreeNodeSplitNparts pagelen N := one_le_btreeNodeSplitNparts N
    omega
  simp only [splitroot]
  split_ifs with hh
  · simp [hparts, hh]
  · simp [hh]

/-- The loop of `splittree`, from a root that is dirty or fits and with fuel for every round the
height bound allows, fails exactly when the rounds reach an oversized root at height 63. -/
theorem splitrootLoop_eq_none_iff :
    ∀ (fuel : ℕ) (R : Node) (n : ℕ), (R.info.state = .dirty ∨ serializeSize R ≤ pagelen) →
      63 ≤ fuel + R.info.height →
      (splitrootLoop pagelen (fuel + 1) R n = none ↔
        ∃ R₂ n₂, Relation.ReflTransGen (SplitrootRound pagelen) (R, n) (R₂, n₂) ∧
          pagelen < serializeSize R₂ ∧ 63 ≤ R₂.info.height)
  | fuel, R, n, hfit, hfuel => by
    rw [splitrootLoop]
    split_ifs with hover
    · -- an oversized root is dirty, and `splitroot` fails exactly at the height bound
      have hdirty : R.cacheSize.info.state = .dirty := by
        simpa using hfit.resolve_right (by omega)
      by_cases hh : R.info.height + 1 < 64
      · obtain ⟨⟨R₁, n₁⟩, hroot⟩ := Option.isSome_iff_exists.mp
          ((splitroot_isSome hdirty n).mpr (by simpa using hh))
        have hh₁ := splitroot_height hroot
        simp only [cacheSize_info] at hh₁
        obtain ⟨fuel, rfl⟩ : ∃ f, fuel = f + 1 := ⟨fuel - 1, by omega⟩
        rw [hroot]
        simp only
        rw [splitrootLoop_eq_none_iff fuel R₁ n₁ (.inl (splitroot_state hroot)) (by omega)]
        constructor
        · rintro ⟨R₂, n₂, hrun, hover₂, hh₂⟩
          exact ⟨R₂, n₂, .head ⟨hover, hroot⟩ hrun, hover₂, hh₂⟩
        · rintro ⟨R₂, n₂, hrun, hover₂, hh₂⟩
          rcases hrun.cases_head with hrun | ⟨q, ⟨-, hq⟩, hrun⟩
          · -- the root itself is below the bound
            simp only [Prod.mk.injEq] at hrun
            obtain ⟨rfl, -⟩ := hrun
            omega
          · rw [hroot, Option.some.injEq] at hq
            subst hq
            exact ⟨R₂, n₂, hrun, hover₂, hh₂⟩
      · have hroot : splitroot pagelen R.cacheSize n = none := by
          simpa [hh] using (splitroot_isSome hdirty n).not
        rw [hroot]
        simp only [true_iff]
        exact ⟨R, n, .refl, hover, by omega⟩
    · -- a root that fits ends the loop, and no round starts from it
      simp only [false_iff, not_exists, not_and]
      intro R₂ n₂ hrun hover₂ _
      rcases hrun.cases_head with hrun | ⟨q, ⟨hover', -⟩, -⟩
      · simp only [Prod.mk.injEq] at hrun
        obtain ⟨rfl, -⟩ := hrun
        omega
      · exact hover hover'

/-- `splittree` on a well-shaped tree whose nodes that are not dirty fit in a page fails exactly
when, after `splitchildren`, the rounds of `splitroot` reach an oversized root at height 63. -/
theorem splittree_eq_none_iff {R : Node} (hR : Shape R) (hfit : CleanFits pagelen R) (n : ℕ) :
    splittree pagelen R n = none ↔ ∃ R₁ n₁ R₂ n₂, splitchildren pagelen R n = some (R₁, n₁) ∧
      Relation.ReflTransGen (SplitrootRound pagelen) (R₁, n₁) (R₂, n₂) ∧
      pagelen < serializeSize R₂ ∧ 63 ≤ R₂.info.height := by
  obtain ⟨⟨R₁, n₁⟩, hsplit⟩ := Option.isSome_iff_exists.mp (splitchildren_isSome R hR hfit n)
  have hfit₁ := splitchildren_dirty_or_fits (or_iff_not_imp_left.mpr hfit.self) hsplit
  rw [splittree, hsplit]
  refine (splitrootLoop_eq_none_iff 63 R₁ n₁ hfit₁ (by omega)).trans ⟨?_, ?_⟩
  · rintro ⟨R₂, n₂, h⟩
    exact ⟨R₁, n₁, R₂, n₂, rfl, h⟩
  rintro ⟨R₁', n₁', R₂, n₂, heq, h⟩
  obtain ⟨rfl, rfl⟩ := Prod.mk.inj (Option.some.inj heq)
  exact ⟨R₂, n₂, h⟩

end SplitFails

/-- `btree_balance` on a tree that satisfies the search-tree invariant, and whose nodes that are
not dirty fit in a page, stops exactly where `splitroot` asserts `N->height + 1 < 64`: when the
rounds of the split phase reach an oversized root at height 63.  Otherwise it yields a tree that
satisfies the invariant again with the same pairs in order.  An empty page must be under the
split threshold, so that split leaves are never empty. -/
theorem btreeBalance_searchTree {pagelen : ℕ} (hpage : serializeOverhead ≤ pagelen * 2 / 3)
    {R : Node} (hR : SearchTree R) (hfit : CleanFits pagelen R) (n : ℕ) :
    (btreeBalance pagelen R n = none ↔ ∃ R₁ n₁ R₂ n₂, splitchildren pagelen R n = some (R₁, n₁) ∧
        Relation.ReflTransGen (SplitrootRound pagelen) (R₁, n₁) (R₂, n₂) ∧
        pagelen < serializeSize R₂ ∧ 63 ≤ R₂.info.height) ∧
      ∀ R' n', btreeBalance pagelen R n = some (R', n') → SearchTree R' ∧ R'.inorder = R.inorder := by
  rw [← splittree_eq_none_iff hR.shape hfit n]
  unfold btreeBalance
  cases hsplit : splittree pagelen R n with
  | none => simp
  | some r =>
    obtain ⟨R₁, n₁⟩ := r
    obtain ⟨hs₁, hm₁, hr₁⟩ := splittree_spec hpage hR.shape hsplit
    have hsome : (balanceLoop pagelen (R₁.count + 1) R₁ n₁).isSome :=
      balanceLoop_isSome (R₁.count + 1) R₁ n₁ hs₁ (hm₁ hR.noMarks) (by omega)
    refine ⟨by simpa [Option.isSome_iff_ne_none] using hsome, fun R' n' h => ?_⟩
    obtain ⟨hs', hm', hr'⟩ := balanceLoop_spec _ _ _ hs₁ (hm₁ hR.noMarks) h
    have hrw := hr₁.trans hr'
    exact ⟨⟨hs', hrw.pairwise hR.ordered, hm'⟩, inorder_eq_of_rewrite hrw⟩

/-! ## Trees used below -/

/-- The key of `n` bytes `b`. -/
def bytesKey (n : ℕ) (b : UInt8) (h : n ≤ 255 := by decide) : KVLDSKey :=
  ⟨List.replicate n b, by simpa using h⟩

/-- The fields of a clean node read from a page. -/
def cleanInfo (height : ℕ) : NodeInfo :=
  { mknodeInfo height 0 with state := .clean, needmerge := false }

/-- A clean path of single-child parents above an empty leaf. -/
def chainNode : ℕ → Node
  | 0 => .leaf (cleanInfo 0) []
  | h + 1 => .parent (cleanInfo (h + 1)) [] [chainNode h]

theorem chainNode_spec (h : ℕ) :
    (chainNode h).info.height = h ∧ SearchTree (chainNode h) ∧ reading (chainNode h) = [] := by
  induction h with
  | zero => exact ⟨rfl, ⟨by simp [chainNode, cleanInfo, mknodeInfo], by simp [chainNode, Ordered],
      by simp [chainNode, NoMarks, cleanInfo, mknodeInfo]⟩, by simp [chainNode]⟩
  | succ h ih =>
    obtain ⟨hh, ⟨hs, -, hm⟩, hr⟩ := ih
    refine ⟨rfl, ⟨shape_parent.mpr ⟨rfl, by simp [hh, hs, cleanInfo, mknodeInfo]⟩, ?_, ?_⟩, ?_⟩
    · simp [Ordered, chainNode, hr]
    · exact every_parent.mpr ⟨rfl, by simpa [NoMarks] using hm⟩
    · simp [chainNode, hr]

/-- A clean path fits in any page: its nodes are of 10 and 30 bytes. -/
theorem cleanFits_chainNode (h : ℕ) : CleanFits 512 (chainNode h) := by
  induction h with
  | zero => simp [CleanFits, chainNode, serializeSize, computeSize, cleanInfo, mknodeInfo, headerLen,
      serializeOverhead, pairsSize]
  | succ h ih =>
    refine every_parent.mpr ⟨fun _ => ?_, by simpa [CleanFits] using ih⟩
    simp [serializeSize, computeSize, cleanInfo, mknodeInfo, headerLen, serializeOverhead,
      parentBodySize, serializePerchild]

/-- Children that read as nothing leave only their separators. -/
theorem readingList_of_reading_nil {ks : List KVLDSKey} {cs : List Node}
    (hlen : cs.length = ks.length + 1) (hcs : ∀ c ∈ cs, reading c = []) :
    readingList ks cs = ks.map Tok.sep := by
  induction ks generalizing cs with
  | nil =>
    obtain ⟨c, rfl⟩ := List.length_eq_one_iff.mp hlen
    simp [hcs c List.mem_cons_self]
  | cons k ks ih =>
    obtain _ | ⟨c, cs⟩ := cs
    · simp at hlen
    · simp [hcs c List.mem_cons_self, ih (by simpa using hlen) fun d hd => hcs d (by simp [hd])]

/-- The separators `1 .. 25`, one byte each. -/
def tallKeys : List KVLDSKey := (List.range 25).map fun i => bytesKey 1 (i.toUInt8 + 1)

/-- A dirty root at height 63 over 26 clean paths: it satisfies the invariant, and its 25
separators and 26 children make it oversized for a 512-byte page. -/
def tallRoot : Node :=
  .parent { mknodeInfo 63 0 with root := true } tallKeys (List.replicate 26 (chainNode 62))

theorem searchTree_tallRoot : SearchTree tallRoot := by
  have hchain := chainNode_spec 62
  have hlen : (List.replicate 26 (chainNode 62)).length = tallKeys.length + 1 := by
    simp [tallKeys]
  refine ⟨shape_parent.mpr ⟨hlen, ?_⟩, ?_, every_parent.mpr ⟨rfl, ?_⟩⟩
  · intro c hc
    rw [List.eq_of_mem_replicate hc]
    exact ⟨by simp [hchain.1, mknodeInfo], hchain.2.1.shape⟩
  · have hread := readingList_of_reading_nil hlen fun c hc => by
      rw [List.eq_of_mem_replicate hc]
      exact hchain.2.2
    simp only [Ordered, tallRoot, reading_parent, hread, List.pairwise_map, Tok.before_sep_sep]
    decide
  · intro c hc
    rw [List.eq_of_mem_replicate hc]
    exact hchain.2.1.noMarks

theorem cleanFits_tallRoot : CleanFits 512 tallRoot := by
  refine every_parent.mpr ⟨fun h => absurd rfl h, fun c hc => ?_⟩
  rw [List.eq_of_mem_replicate hc]
  exact cleanFits_chainNode 62

/-- Rebalancing can stop at an assertion: the oversized root of `tallRoot`, at height 63, makes
`splitroot` assert `N->height + 1 < 64`. -/
theorem btreeBalance_tallRoot : SearchTree tallRoot ∧ btreeBalance 512 tallRoot tallRoot.count = none :=
  ⟨searchTree_tallRoot, by rfl⟩

/-- Three pairs of 170, 161 and 170 bytes, keys of 64 bytes and values of at most 104: the
lengths `btree_init` accepts for 512-byte pages with `-k 64 -v 104`. -/
def overfullPairs : List (KVLDSKey × KVLDSKey) :=
  [(bytesKey 64 1, bytesKey 104 0), (bytesKey 64 2, bytesKey 95 0), (bytesKey 64 3, bytesKey 104 0)]

/-- The dirty root leaf holding `overfullPairs`, as three SETs leave an empty tree. -/
def overfullLeaf : Node := .leaf { mknodeInfo 0 (leafMlenN overfullPairs) with root := true } overfullPairs

theorem searchTree_overfullLeaf : SearchTree overfullLeaf := by
  refine ⟨by simp [overfullLeaf, mknodeInfo], ?_, by simp [overfullLeaf, NoMarks, mknodeInfo]⟩
  simp only [Ordered, overfullLeaf, reading_leaf, List.pairwise_map, pairItem, Tok.before_key_key]
  decide

/-- `btreeBalance_searchTree` at both of its outcomes: at `tallRoot` the split phase reaches the
oversized root at height 63, and at `overfullLeaf` rebalancing keeps the invariant and the
pairs. -/
theorem btreeBalance_searchTree_tallRoot_overfullLeaf :
    (∃ R₁ n₁ R₂ n₂, splitchildren 512 tallRoot tallRoot.count = some (R₁, n₁) ∧
        Relation.ReflTransGen (SplitrootRound 512) (R₁, n₁) (R₂, n₂) ∧
        512 < serializeSize R₂ ∧ 63 ≤ R₂.info.height) ∧
      ∀ R' n', btreeBalance 512 overfullLeaf 1 = some (R', n') →
        SearchTree R' ∧ R'.inorder = overfullLeaf.inorder :=
  ⟨(btreeBalance_searchTree (by decide) searchTree_tallRoot cleanFits_tallRoot tallRoot.count).1.mp
      (by rfl),
    (btreeBalance_searchTree (by decide) searchTree_overfullLeaf
      (by simp [CleanFits, overfullLeaf, mknodeInfo]) 1).2⟩

/-! ## Page sizes after rebalancing -/

/-- After `btree_balance`, the dirty root of a tree can be larger than a page.  The root leaf of
`overfullLeaf` is oversized only as a root (519 bytes with the root's node count, 511 without),
and `nparts_leaf` keeps it in one part; so `splitroot` puts a root above it, which `deroot`
removes again, and the leaf is back as an oversized root. -/
theorem btreeBalance_overfullLeaf :
    btreeInitAccepts 512 64 104 = true ∧
      (∀ p ∈ overfullLeaf.inorder, p.1.len ≤ 64 ∧ p.2.len ≤ 104) ∧ SearchTree overfullLeaf ∧
      ∃ R' n', btreeBalance 512 overfullLeaf 1 = some (R', n') ∧ R'.info.state = .dirty ∧
        R'.info.root = true ∧ serializeSize R' = 519 :=
  ⟨by decide, by decide, searchTree_overfullLeaf, _, _, rfl, rfl, rfl, rfl⟩

/-! ## Occupancy after rebalancing -/

/-- The key with bytes `l`. -/
def listKey (l : List UInt8) (h : l.length ≤ 255 := by decide) : KVLDSKey := ⟨l, h⟩

/-- Leaves of 200, 260, 100, 100 and 300 bytes, the first two and the last two under one parent
each, the middle one's with the first; separators of 70 bytes.  Keys are at most 69 bytes and
values at most 99, as `btree_init` accepts for 512-byte pages with `-k 69 -v 99`. -/
def cousinLeaf₀ : Node := .leaf (cleanInfo 0) [(listKey [1], bytesKey 98 0), (listKey [1, 1], bytesKey 85 0)]

def cousinLeaf₁ : Node :=
  .leaf (cleanInfo 0) [(bytesKey 69 2, bytesKey 54 0), (listKey (List.replicate 68 2 ++ [3]), bytesKey 54 0)]

def cousinLeaf₂ : Node := .leaf (cleanInfo 0) [(bytesKey 69 3, bytesKey 19 0)]

def cousinLeaf₃ : Node := .leaf (cleanInfo 0) [(bytesKey 69 4, bytesKey 19 0)]

def cousinLeaf₄ : Node :=
  .leaf (cleanInfo 0) [(bytesKey 69 5, bytesKey 74 0), (listKey (List.replicate 68 5 ++ [6]), bytesKey 74 0)]

def cousinParent₀ : Node :=
  .parent (cleanInfo 1) [bytesKey 69 2, bytesKey 69 3] [cousinLeaf₀, cousinLeaf₁, cousinLeaf₂]

def cousinParent₁ : Node := .parent (cleanInfo 1) [bytesKey 69 5] [cousinLeaf₃, cousinLeaf₄]

/-- A committed tree of height 2 in which the leaves `cousinLeaf₂` and `cousinLeaf₃` are
cousins. -/
def cousinRoot : Node :=
  .parent { cleanInfo 2 with root := true } [bytesKey 69 4] [cousinParent₀, cousinParent₁]

/-- `cousinRoot` after a batch that shortens the two values of `cousinLeaf₀`: that leaf and its
ancestors are dirty copies. -/
def cousinDirtyRoot : Node :=
  .parent cousinRoot.dirtyCopy.info [bytesKey 69 4]
    [.parent cousinParent₀.dirtyCopy.info [bytesKey 69 2, bytesKey 69 3]
       [.leaf cousinLeaf₀.dirtyCopy.info [(listKey [1], bytesKey 10 0), (listKey [1, 1], bytesKey 13 0)],
        cousinLeaf₁, cousinLeaf₂],
     cousinParent₁]

/-- Rebalancing need not restore balancing condition 4.  The shortened leaf merges into its
neighbour, which shrinks the first parent enough to merge with the second; the clean cousins
`cousinLeaf₂` and `cousinLeaf₃` become adjacent siblings that would fit together in 190 bytes,
and the next pass, which only merges runs holding a dirty node, leaves them apart. -/
theorem btreeBalance_cousinLeaves :
    btreeInitAccepts 512 69 99 = true ∧
      (∀ p ∈ cousinDirtyRoot.inorder, p.1.len ≤ 69 ∧ p.2.len ≤ 99) ∧ Balanced 512 cousinRoot ∧
      cousinDirtyRoot.inorder.map Prod.fst = cousinRoot.inorder.map Prod.fst ∧
      ∃ R' n', btreeBalance 512 cousinDirtyRoot cousinDirtyRoot.count = some (R', n') ∧
        ¬ Balanced 512 R' :=
  ⟨by decide, by decide, by decide, by decide, _, _, rfl, fun h => absurd h.1.self (by decide)⟩

end Kivaloo.Kvlds
